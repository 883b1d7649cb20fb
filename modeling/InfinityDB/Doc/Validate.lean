import InfinityDB.Doc.Tape

/-!
# The tape validator

One pass with a stack of open containers. A container closes exactly where its length says; an
object alternates keys and values; every value must be spelled as the emitter would. The bytes that
pass are the encodings of documents, and no others.
-/

namespace InfinityDB

open Lib List

inductive DocError where
  | truncated
  | badMagic
  | unsupportedVersion (version : UInt8)
  | unsupportedFlags (flags : UInt8)
  | tooLarge (bytes : Nat)
  | depthExceeded
  | badTag (tag : UInt8)
  | badLength
  | nonCanonical (what : String)
  | badUtf8
  | badKey
  | nonFiniteNumber
  | arenaExhausted
deriving DecidableEq

/-- One open container: where its region ends, and for an object whether a key is due. -/
structure Scope where
  stop : Nat
  isObj : Bool
  expectsKey : Bool
deriving DecidableEq

/-- Where the data of a string form starts and its length, in the canonical width. -/
def strExtent (body : Bytes) (off limit : Nat) : Except DocError (Nat × Nat) :=
  match body[off]? with
  | none => .error .truncated
  | some tag =>
    if isFixstr tag then .ok (off + 1, (tag - fixstrBase).toNat)
    else if tag = tagStr8 then
      if limit < off + 2 then .error .truncated
      else
        match body[off + 1]? with
        | none => .error .truncated
        | some len =>
          if len.toNat < str8MinLen then .error (.nonCanonical "str8 under 32 bytes") else .ok (off + 2, len.toNat)
    else
      if limit < off + 4 then .error .truncated
      else
        match readU24 body (off + 1) with
        | none => .error .truncated
        | some len =>
          if len < str24MinLen then .error (.nonCanonical "str24 under 256 bytes") else .ok (off + 4, len)

/-- The data offset and the next offset of a string form. -/
def validateStr (body : Bytes) (off limit : Nat) : Except DocError (Nat × Nat) := do
  let (dataAt, len) ← strExtent body off limit
  if limit < dataAt + len then .error .truncated
  else if validUtf8 ((body.drop dataAt).take len) then .ok (dataAt, dataAt + len)
  else .error .badUtf8

def isStringTag (tag : UInt8) : Bool := tag == tagStr8 || tag == tagStr24 || isFixstr tag

/-- The top scope after a value: an object expects a key again. -/
def afterValue : List Scope → List Scope
  | [] => []
  | top :: rest => (if top.isObj then { top with expectsKey := true } else top) :: rest

def afterKey : List Scope → List Scope
  | [] => []
  | top :: rest => { top with expectsKey := false } :: rest

/-- One value or key; a container opens a scope. -/
def validateOne (body : Bytes) (off limit : Nat) (keyPosition : Bool) (stack : List Scope) :
    Except DocError (Nat × List Scope) :=
  match body[off]? with
  -- unreachable: the loop stops at the end of the body
  | none => .error .truncated
  | some tag =>
    if keyPosition then
      if !isStringTag tag then .error .badKey
      else do
        let (_, next) ← validateStr body off limit
        .ok (next, afterKey stack)
    else
      -- a container counts as the value of its parent when it opens
      let stack := afterValue stack
      if isStringTag tag then do
        let (_, next) ← validateStr body off limit
        .ok (next, stack)
      else if isFixint tag then .ok (off + 1, stack)
      else if tag = tagNull ∨ tag = tagFalse ∨ tag = tagTrue then .ok (off + 1, stack)
      else if tag = tagI64 then
        match decodeVarint ((body.take limit).drop (off + 1)) with
        | none => .error (.nonCanonical "i64 varint")
        | some (raw, used) =>
          if isFixintValue (unzigzag raw) then .error (.nonCanonical "fixint-range i64 tag")
          else .ok (off + 1 + used, stack)
      else if tag = tagF64 then
        if limit < off + 9 then .error .truncated
        else if (⟨UInt64.ofNat (leValue ((body.drop (off + 1)).take 8))⟩ : Binary64).isFinite then
          .ok (off + 9, stack)
        else .error (.nonCanonical "non-finite f64")
      else if tag = tagObj ∨ tag = tagArr then
        if limit < off + 4 then .error .truncated
        else if stack.length = depthMax then .error .depthExceeded
        else
          match readU24 body (off + 1) with
          | none => .error .truncated
          | some len =>
            if limit < off + 4 + len then .error .badLength
            else .ok (off + 4, ⟨off + 4 + len, tag == tagObj, tag == tagObj⟩ :: stack)
      else .error (.badTag tag)

def closeScopes (off : Nat) : List Scope → Except DocError (List Scope)
  | [] => .ok []
  | top :: rest =>
    if off ≠ top.stop then .ok (top :: rest)
    else if top.isObj && !top.expectsKey then .error .badKey
    else closeScopes off rest

/-- The limit of a value: the end of its container. -/
def limitOf (body : Bytes) : List Scope → Nat
  | [] => body.length
  | top :: _ => top.stop

def keyDue : List Scope → Bool
  | [] => false
  | top :: _ => top.isObj && top.expectsKey

/-- The loop. A turn passes at least one byte, so without turns left the body is at its end. -/
def validateLoop (body : Bytes) : Nat → Nat → List Scope → Bool → Except DocError Unit
  | 0, off, stack, rootSeen => do
    let _ ← closeScopes off stack
    if rootSeen then .ok () else .error .truncated
  | turns + 1, off, stack, rootSeen => do
    let stack ← closeScopes off stack
    if off = body.length then
      -- an empty body has no root
      if rootSeen then .ok () else .error .truncated
    -- trailing bytes after the root
    else if stack.isEmpty && rootSeen then .error .badLength
    else do
      let (next, stack) ← validateOne body off (limitOf body stack) (keyDue stack) stack
      validateLoop body turns next stack true

def validateBody (body : Bytes) : Except DocError Unit := validateLoop body body.length 0 [] false

/-- One value without a header: validate, then read its root. -/
def canonicalFragment (bytes : Bytes) : Except DocError (Option ValueRef) := do
  validateBody bytes
  .ok ((readValue bytes 0).map Prod.fst)

section Sound

variable {body : Bytes} {off limit next : Nat}

/-- What stands at a position, up to the next. -/
def Spans (body : Bytes) (off next : Nat) (bytes : Bytes) : Prop :=
  body.drop off = bytes ++ body.drop next ∧ next = off + bytes.length

theorem Spans.append {mid : Nat} {k l : Bytes} (hk : Spans body off mid k) (hl : Spans body mid next l) :
    Spans body off next (k ++ l) := by
  constructor
  · rw [hk.1, hl.1, append_assoc]
  · rw [hl.2, hk.2, length_append, add_assoc]

theorem Spans.cons {tag : UInt8} {l : Bytes} (htag : body[off]? = some tag) (hl : Spans body (off + 1) next l) :
    Spans body off next (tag :: l) := by
  constructor
  · rw [drop_of_getElem? htag, hl.1]
    rfl
  · rw [hl.2, length_cons]
    omega

theorem Spans.of_drop {k t : Bytes} (h : body.drop off = k ++ t) : Spans body off (off + k.length) k := by
  refine ⟨?_, rfl⟩
  rw [drop_add_of_drop h, h]

theorem Spans.single {tag : UInt8} (htag : body[off]? = some tag) : Spans body off (off + 1) [tag] :=
  ⟨drop_of_getElem? htag, rfl⟩

theorem Spans.take {n : Nat} (h : off + n ≤ body.length) : Spans body off (off + n) ((body.drop off).take n) := by
  constructor
  · rw [← drop_drop, take_append_drop]
  · rw [length_take, length_drop]
    omega

theorem readU24_inv {n : Nat} (h : readU24 body off = some n) :
    n < 2 ^ 24 ∧ Spans body off (off + 3) (leBytes 3 n) := by
  rw [readU24, Option.map_eq_some_iff] at h
  obtain ⟨k, hk, rfl⟩ := h
  obtain ⟨hdrop, hlen, -⟩ := drop_of_region hk
  have hbytes := leBytes_leValue k
  have hlt := leValue_lt k
  rw [hlen] at hbytes hlt
  refine ⟨hlt, ?_, ?_⟩
  · rw [hbytes, hdrop]
  · rw [leBytes_length]

/-- The data of a string behind its header. -/
private theorem str_spans {head : Bytes} {dataAt len : Nat} (hlimit : limit ≤ body.length)
    (hhead : Spans body off dataAt head) (hend : ¬ limit < dataAt + len)
    (hheader : head = strHeader len) (hlen : len < 2 ^ 24) (hutf8 : validUtf8 ((body.drop dataAt).take len) = true) :
    ∃ s, StrFits s ∧ Spans body off (dataAt + len) (emitStr s) := by
  have hdata : Spans body dataAt (dataAt + len) ((body.drop dataAt).take len) := Spans.take (by omega)
  have hcount : ((body.drop dataAt).take len).length = len := by
    have := hdata.2
    omega
  refine ⟨(body.drop dataAt).take len, ⟨hutf8, by rw [hcount]; exact hlen⟩, ?_⟩
  rw [emitStr, hcount, ← hheader]
  exact hhead.append hdata

theorem validateStr_inv {tag : UInt8} {dataAt : Nat} (hlimit : limit ≤ body.length) (htag : body[off]? = some tag)
    (hstring : isStringTag tag = true) (h : validateStr body off limit = .ok (dataAt, next)) :
    ∃ s, StrFits s ∧ Spans body off next (emitStr s) ∧ next ≤ limit := by
  rw [validateStr] at h
  obtain ⟨⟨dataAt', len⟩, hhead, h⟩ := except_bind_ok h
  rw [strExtent, htag] at hhead
  simp only at hhead h
  obtain ⟨hend, h⟩ := guard_ok h
  obtain ⟨hutf8, h⟩ := check_ok h
  obtain ⟨rfl, rfl⟩ := ok_pair_inj h
  have hnext : dataAt' + len ≤ limit := by omega
  suffices hs : ∃ s, StrFits s ∧ Spans body off (dataAt' + len) (emitStr s) by
    obtain ⟨s, hfits, hspans⟩ := hs
    exact ⟨s, hfits, hspans, hnext⟩
  split at hhead
  next hfix =>
    cases hhead
    have hrange := (isFixstr_iff tag).mp hfix
    have hlen := fixstr_len hfix
    apply str_spans hlimit (Spans.single htag) hend ?_ (by omega) hutf8
    rw [strHeader, if_pos (by rw [fixstrMaxLen]; omega)]
    congr 1
    apply UInt8.toNat.inj
    rw [fixstr_tag (by rw [fixstrMaxLen]; omega)]
    omega
  · split at hhead
    next hstr8 =>
      split at hhead
      · simp at hhead
      split at hhead
      · simp at hhead
      rename_i l hl
      obtain ⟨hmin, hhead⟩ := guard_ok hhead
      cases hhead
      have hlt := l.toNat_lt
      rw [str8MinLen] at hmin
      apply str_spans hlimit (Spans.cons htag (Spans.single hl)) hend ?_ (by omega) hutf8
      rw [strHeader, if_neg (by rw [fixstrMaxLen]; omega), if_pos (by rw [str24MinLen]; omega), hstr8,
        UInt8.ofNat_toNat]
    next hfix hstr8 =>
      have hstr24 : tag = tagStr24 := by
        rw [isStringTag, Bool.or_eq_true, Bool.or_eq_true, beq_iff_eq, beq_iff_eq] at hstring
        rcases hstring with (h | h) | h
        · exact absurd h hstr8
        · exact h
        · exact absurd h hfix
      split at hhead
      · simp at hhead
      split at hhead
      · simp at hhead
      rename_i l hl
      obtain ⟨hmin, hhead⟩ := guard_ok hhead
      cases hhead
      obtain ⟨hlt, hspans⟩ := readU24_inv hl
      apply str_spans hlimit (Spans.cons htag hspans) hend ?_ hlt hutf8
      rw [str24MinLen] at hmin
      rw [strHeader, if_neg (by rw [fixstrMaxLen]; omega), if_neg (by rw [str24MinLen]; omega), hstr24]

variable {stack stack' : List Scope}

theorem validateOne_key (hlimit : limit ≤ body.length)
    (h : validateOne body off limit true stack = .ok (next, stack')) :
    stack' = afterKey stack ∧ ∃ key, StrFits key ∧ Spans body off next (emitStr key) ∧ next ≤ limit := by
  rw [validateOne] at h
  split at h
  · simp at h
  rename_i tag htag
  simp only [if_true] at h
  obtain ⟨hstring, h⟩ := guard_ok h
  obtain ⟨⟨dataAt, next'⟩, hstr, h⟩ := except_bind_ok h
  cases h
  exact ⟨rfl, validateStr_inv hlimit htag (by simpa using hstring) hstr⟩

theorem afterValue_length (stack : List Scope) : (afterValue stack).length = stack.length := by
  cases stack <;> rfl

/-- A value position takes a scalar, or opens a container. -/
theorem validateOne_value (hoff : off < limit) (hlimit : limit ≤ body.length)
    (h : validateOne body off limit false stack = .ok (next, stack')) :
    (stack' = afterValue stack ∧ ∃ s : Scalar, s.Fits ∧ Spans body off next (emitScalar s) ∧ next ≤ limit) ∨
    ∃ (isObj : Bool) (len : Nat), stack' = ⟨next + len, isObj, isObj⟩ :: afterValue stack ∧
      stack.length ≠ depthMax ∧ len < 2 ^ 24 ∧
      Spans body off next ((if isObj then tagObj else tagArr) :: leBytes 3 len) ∧ next + len ≤ limit := by
  rw [validateOne] at h
  split at h
  · simp at h
  rename_i tag htag
  have hone := Spans.single htag
  simp only [Bool.false_eq_true, if_false] at h
  -- one case for each tag, in the order of the tests
  split at h
  next hstring =>
    obtain ⟨⟨dataAt, next'⟩, hstr, h⟩ := except_bind_ok h
    cases h
    obtain ⟨s, hs, hspans, hnext⟩ := validateStr_inv hlimit htag hstring hstr
    exact .inl ⟨rfl, .str s, hs, hspans, hnext⟩
  · split at h
    next hfix =>
      cases h
      obtain ⟨hvalue, hbyte⟩ := value_of_fixint hfix
      refine .inl ⟨rfl, .i64 (fixintValue tag), trivial, ?_, hoff⟩
      rw [emitScalar, emitI64, if_pos hvalue, hbyte]
      exact hone
    · split at h
      next hliteral =>
        cases h
        rcases hliteral with rfl | rfl | rfl
        · exact .inl ⟨rfl, .null, trivial, hone, hoff⟩
        · exact .inl ⟨rfl, .bool false, trivial, hone, hoff⟩
        · exact .inl ⟨rfl, .bool true, trivial, hone, hoff⟩
      · split at h
        next hi64 =>
          cases hvarint : decodeVarint ((body.take limit).drop (off + 1)) with
          | none =>
            rw [hvarint] at h
            simp at h
          | some r =>
            obtain ⟨raw, used⟩ := r
            rw [hvarint] at h
            simp only at h
            obtain ⟨hwide, h⟩ := guard_ok h
            cases h
            obtain ⟨t, hdrop, hused⟩ := encodeVarint_of_decodeVarint hvarint
            have hlen := congrArg List.length hdrop
            rw [length_drop, length_take, length_append] at hlen
            have hspans : Spans body (off + 1) (off + 1 + used) (encodeVarint raw) := by
              rw [hused]
              apply @Spans.of_drop _ _ _ (t ++ body.drop limit)
              have hsplit : body.drop limit = (body.drop (off + 1)).drop (limit - (off + 1)) := by
                rw [drop_drop]
                congr 1
                omega
              rw [← append_assoc, ← hdrop, drop_take, hsplit, take_append_drop]
            refine .inl ⟨rfl, .i64 (unzigzag raw), trivial, ?_, by omega⟩
            rw [emitScalar, emitI64, if_neg hwide, zigzag_unzigzag, ← hi64]
            exact Spans.cons htag hspans
        · split at h
          next hf64 =>
            obtain ⟨hend, h⟩ := guard_ok h
            obtain ⟨hfinite, h⟩ := check_ok h
            cases h
            have hdata : Spans body (off + 1) (off + 1 + 8) ((body.drop (off + 1)).take 8) :=
              Spans.take (by omega)
            have hlen : ((body.drop (off + 1)).take 8).length = 8 := by
              have := hdata.2
              omega
            have hbytes := leBytes_leValue ((body.drop (off + 1)).take 8)
            have hlt := leValue_lt ((body.drop (off + 1)).take 8)
            rw [hlen] at hbytes hlt
            refine .inl ⟨rfl, .f64 (UInt64.ofNat (leValue ((body.drop (off + 1)).take 8))), hfinite, ?_, by omega⟩
            rw [emitScalar, emitF64, UInt64.toNat_ofNat', Nat.mod_eq_of_lt (lt_of_lt_of_le hlt (by decide)), hbytes,
              ← hf64]
            exact Spans.cons htag hdata
          · obtain ⟨hcontainer, h⟩ := check_ok h
            obtain ⟨-, h⟩ := guard_ok h
            obtain ⟨hdepth, h⟩ := guard_ok h
            rw [afterValue_length] at hdepth
            split at h
            · simp at h
            rename_i len hlen
            obtain ⟨hend, h⟩ := guard_ok h
            cases h
            obtain ⟨hlt, hspans⟩ := readU24_inv hlen
            refine .inr ⟨tag == tagObj, len, rfl, hdepth, hlt, ?_, by omega⟩
            have htags : (if (tag == tagObj) = true then tagObj else tagArr) = tag := by
              rcases hcontainer with rfl | rfl <;> rfl
            rw [htags]
            exact Spans.cons htag hspans

/-- What the rest of an open container holds: items, members, or the value of a key and members. -/
inductive Part (room : Nat) : Bool → Bool → Bytes → Prop where
  | items {expectsKey : Bool} {items : List Doc} : (∀ d ∈ items, Encodable room d) →
      Part room false expectsKey (itemsBytes items)
  | members {members : List (Bytes × Doc)} : (∀ x ∈ members, StrFits x.1) → (∀ x ∈ members, Encodable room x.2) →
      Part room true true (membersBytes members)
  | value {d : Doc} {members : List (Bytes × Doc)} : Encodable room d → (∀ x ∈ members, StrFits x.1) →
      (∀ x ∈ members, Encodable room x.2) → Part room true false (d.bytes ++ membersBytes members)

/-- The open containers are completed by what follows, each up to its end. -/
def Completes (body : Bytes) : Nat → List Scope → Prop
  | off, [] => off = body.length
  | off, top :: rest =>
    (∃ part, Part (depthMax - (rest.length + 1)) top.isObj top.expectsKey part ∧ Spans body off top.stop part) ∧
      Completes body top.stop rest

/-- Ends of containers do not cross. -/
def Nested (body : Bytes) : Nat → List Scope → Prop
  | off, [] => off ≤ body.length
  | off, top :: rest => off ≤ top.stop ∧ Nested body top.stop rest

/-- A value in front of what completes its container. -/
theorem Completes.value {d : Doc} {stack : List Scope} {mid : Nat} (hkey : keyDue stack = false)
    (hne : stack ≠ []) (hd : Encodable (depthMax - stack.length) d) (hspans : Spans body off mid d.bytes)
    (h : Completes body mid (afterValue stack)) : Completes body off stack := by
  cases stack with
  | nil => exact absurd rfl hne
  | cons top rest =>
    obtain ⟨⟨part, hpart, hrest⟩, hcomplete⟩ := h
    have hjoin := hspans.append hrest
    obtain ⟨stop, isObj, expectsKey⟩ := top
    cases isObj with
    | false =>
      refine ⟨⟨_, ?_, hjoin⟩, hcomplete⟩
      cases hpart with
      | @items _ items hitems =>
        have hcons : d.bytes ++ itemsBytes items = itemsBytes (d :: items) := by rw [itemsBytes]
        rw [hcons]
        apply Part.items
        exact forall_mem_cons.mpr ⟨hd, hitems⟩
    | true =>
      have hexpects : expectsKey = false := by simpa [keyDue] using hkey
      subst hexpects
      refine ⟨⟨_, ?_, hjoin⟩, hcomplete⟩
      cases hpart with
      | members hkeys hvalues => exact Part.value hd hkeys hvalues

/-- A key in front of what completes its object. -/
theorem Completes.key {key : Bytes} {mid : Nat} (hdue : keyDue stack = true)
    (hfits : StrFits key) (hspans : Spans body off mid (emitStr key)) (h : Completes body mid (afterKey stack)) :
    Completes body off stack := by
  cases stack with
  | nil => exact absurd hdue (by decide)
  | cons top rest =>
    obtain ⟨⟨part, hpart, hrest⟩, hcomplete⟩ := h
    have hjoin := hspans.append hrest
    obtain ⟨stop, isObj, expectsKey⟩ := top
    obtain ⟨rfl, rfl⟩ : isObj = true ∧ expectsKey = true := by simpa [keyDue] using hdue
    refine ⟨⟨_, ?_, hjoin⟩, hcomplete⟩
    cases hpart with
    | @value d members hd hkeys hvalues =>
      have hcons : emitStr key ++ (d.bytes ++ membersBytes members) = membersBytes ((key, d) :: members) := by
        rw [membersBytes]
      rw [hcons]
      apply Part.members
      · exact forall_mem_cons.mpr ⟨hfits, hkeys⟩
      · exact forall_mem_cons.mpr ⟨hd, hvalues⟩

/-- A closed scope held nothing more. -/
theorem Completes.of_close (h : closeScopes off stack = .ok stack')
    (hcomplete : Completes body off stack') : Completes body off stack := by
  induction stack with
  | nil =>
    cases h
    exact hcomplete
  | cons top rest ih =>
    rw [closeScopes] at h
    split at h
    · cases h
      exact hcomplete
    rename_i hstop
    obtain ⟨hparity, h⟩ := guard_ok h
    have hrest := ih h
    rw [not_ne_iff.mp hstop] at hrest ⊢
    refine ⟨⟨[], ?_, rfl, rfl⟩, hrest⟩
    obtain ⟨stop, isObj, expectsKey⟩ := top
    cases isObj with
    | false => exact @Part.items _ _ [] nofun
    | true =>
      have hexpects : expectsKey = true := by simpa using hparity
      subst hexpects
      exact @Part.members _ [] (nofun) nofun

/-- Closing keeps the ends in order, and leaves no scope that ends here. -/
theorem Nested.close (h : closeScopes off stack = .ok stack') (hnested : Nested body off stack) :
    Nested body off stack' ∧ stack'.length ≤ stack.length ∧ ∀ top ∈ stack'.head?, off < top.stop := by
  induction stack with
  | nil =>
    cases h
    exact ⟨hnested, le_rfl, nofun⟩
  | cons top rest ih =>
    obtain ⟨hle, hrest⟩ := hnested
    rw [closeScopes] at h
    split at h
    next hstop =>
      cases h
      refine ⟨⟨hle, hrest⟩, le_rfl, ?_⟩
      intro x hx
      cases hx
      omega
    next hstop =>
      split at h
      · simp at h
      rw [← not_ne_iff.mp hstop] at hrest
      obtain ⟨hnested, hlen, hhead⟩ := ih h hrest
      exact ⟨hnested, hlen.trans (Nat.le_succ _), hhead⟩

theorem Nested.le_length (h : Nested body off stack) : off ≤ body.length := by
  induction stack generalizing off with
  | nil => exact h
  | cons top rest ih => exact h.1.trans (ih h.2)

theorem Nested.limit_le (h : Nested body off stack) : limitOf body stack ≤ body.length := by
  cases stack with
  | nil => exact le_rfl
  | cons top rest => exact h.2.le_length

/-- Keys and values leave the end of their container where it is. -/
theorem Nested.step (h : Nested body off stack) (hnext : next ≤ limitOf body stack)
    (hstack : stack' = afterKey stack ∨ stack' = afterValue stack) : Nested body next stack' := by
  cases stack with
  | nil => rcases hstack with rfl | rfl <;> exact hnext
  | cons top rest =>
    rcases hstack with rfl | rfl
    · exact ⟨hnext, h.2⟩
    · rw [afterValue]
      refine ⟨?_, ?_⟩
      · split <;> exact hnext
      · split <;> exact h.2

theorem afterKey_length (stack : List Scope) : (afterKey stack).length = stack.length := by
  cases stack <;> rfl

/-- At the end of the body every scope closes. -/
private theorem completes_of_end (h : closeScopes off stack = .ok stack')
    (hnested : Nested body off stack) (hoff : off = body.length) : Completes body off stack := by
  obtain ⟨hnested', -, hhead⟩ := hnested.close h
  refine Completes.of_close h ?_
  cases stack' with
  | nil => exact hoff
  | cons top rest =>
    have hlt := hhead top rfl
    have hle := hnested'.2.le_length
    omega

/-- A container whose rest is completed is a value. -/
private theorem encodable_of_part {room len : Nat} {isObj : Bool} {part : Bytes} (hlen : len < 2 ^ 24) (hpart : Part room isObj isObj part)
    (hcount : part.length = len) :
    ∃ d, Encodable (room + 1) d ∧ d.bytes = (if isObj then tagObj else tagArr) :: (leBytes 3 len ++ part) := by
  subst hcount
  cases isObj with
  | false =>
    cases hpart with
    | @items _ items hitems =>
      refine ⟨.arr items, .arr hitems hlen, ?_⟩
      rw [Doc.bytes, container]
      rfl
  | true =>
    cases hpart with
    | @members members hkeys hvalues =>
      refine ⟨.obj members, .obj hkeys hvalues hlen, ?_⟩
      rw [Doc.bytes, container]
      rfl

/-- A value position that passes holds a value, if what follows completes the stack it leaves. -/
theorem value_of_validateOne (hoff : off < limit) (hlimit : limit ≤ body.length)
    (hdepth : stack.length ≤ depthMax) (h : validateOne body off limit false stack = .ok (next, stack'))
    (hcomplete : Completes body next stack') :
    ∃ d mid, Encodable (depthMax - stack.length) d ∧ Spans body off mid d.bytes ∧
      Completes body mid (afterValue stack) := by
  rcases validateOne_value hoff hlimit h with ⟨rfl, s, hs, hspans, -⟩ | ⟨isObj, len, rfl, hroom, hlen, hspans, -⟩
  · refine ⟨.scalar s, next, .scalar hs, ?_, hcomplete⟩
    rw [Doc.bytes]
    exact hspans
  obtain ⟨⟨part, hpart, hrest⟩, hcomplete⟩ := hcomplete
  have hcount : part.length = len := by
    have := hrest.2
    simp only at this
    omega
  obtain ⟨d, hd, hbytes⟩ := encodable_of_part hlen hpart hcount
  refine ⟨d, next + len, ?_, ?_, hcomplete⟩
  · rw [afterValue_length] at hd
    have hroom : depthMax - (stack.length + 1) + 1 = depthMax - stack.length := by omega
    rw [← hroom]
    exact hd
  · rw [hbytes]
    exact hspans.append hrest

/-- A step keeps the ends in order and the depth in bounds, and moves on. -/
theorem validateOne_step {keyPosition : Bool} (hoff : off < limitOf body stack)
    (hnested : Nested body off stack) (hdepth : stack.length ≤ depthMax)
    (h : validateOne body off (limitOf body stack) keyPosition stack = .ok (next, stack')) :
    off < next ∧ Nested body next stack' ∧ stack'.length ≤ depthMax := by
  have hlimit := hnested.limit_le
  cases keyPosition with
  | true =>
    obtain ⟨rfl, key, -, hspans, hnext⟩ := validateOne_key hlimit h
    have hpos := length_pos_of_ne_nil (emitStr_ne_nil key)
    refine ⟨?_, hnested.step hnext (.inl rfl), ?_⟩
    · rw [hspans.2]
      omega
    · rw [afterKey_length]
      exact hdepth
  | false =>
    rcases validateOne_value hoff hlimit h with ⟨rfl, s, -, hspans, hnext⟩ | ⟨isObj, len, rfl, hroom, -, hspans, hnext⟩
    · have hpos := length_pos_of_ne_nil (Doc.bytes_ne_nil (.scalar s))
      rw [Doc.bytes] at hpos
      refine ⟨?_, hnested.step hnext (.inr rfl), ?_⟩
      · rw [hspans.2]
        omega
      · rw [afterValue_length]
        exact hdepth
    · have hpos := hspans.2
      rw [length_cons] at hpos
      refine ⟨by omega, ⟨Nat.le_add_right _ _, hnested.step hnext (.inr rfl)⟩, ?_⟩
      rw [length_cons, afterValue_length]
      omega

/-- A run that passes completes the containers it started with. -/
private theorem completes_of_validateLoop {turns : Nat} (hturns : body.length - off ≤ turns)
    (hnested : Nested body off stack) (hdepth : stack.length ≤ depthMax)
    (h : validateLoop body turns off stack true = .ok ()) : Completes body off stack := by
  induction turns generalizing off stack with
  | zero =>
    rw [validateLoop] at h
    obtain ⟨stack', hclose, -⟩ := except_bind_ok h
    have hend := hnested.le_length
    exact completes_of_end hclose hnested (by omega)
  | succ turns ih =>
    rw [validateLoop] at h
    obtain ⟨stack', hclose, h⟩ := except_bind_ok h
    split at h
    next hend => exact completes_of_end hclose hnested hend
    obtain ⟨hnested', hlen, hhead⟩ := hnested.close hclose
    refine Completes.of_close hclose ?_
    split at h
    · simp at h
    rename_i hend hopen
    have hne : stack' ≠ [] := by
      rintro rfl
      exact hopen rfl
    have hlt : off < limitOf body stack' := by
      cases stack' with
      | nil => exact absurd rfl hne
      | cons top rest => exact hhead top rfl
    obtain ⟨⟨next, stack''⟩, hone, h⟩ := except_bind_ok h
    obtain ⟨hmove, hnested'', hdepth''⟩ := validateOne_step hlt hnested' (hlen.trans hdepth) hone
    have hcomplete := ih (by omega) hnested'' hdepth'' h
    cases hkey : keyDue stack' with
    | true =>
      rw [hkey] at hone
      obtain ⟨rfl, key, hfits, hspans, -⟩ := validateOne_key hnested'.limit_le hone
      exact Completes.key hkey hfits hspans hcomplete
    | false =>
      rw [hkey] at hone
      obtain ⟨d, mid, hd, hspans, hrest⟩ :=
        value_of_validateOne hlt hnested'.limit_le (hlen.trans hdepth) hone hcomplete
      exact Completes.value hkey hne hd hspans hrest

/-- A body that passes is the encoding of a document. -/
theorem encodable_of_validateBody (h : validateBody body = .ok ()) : ∃ d, Encodable depthMax d ∧ body = d.bytes := by
  rw [validateBody] at h
  cases hlen : body.length with
  | zero =>
    rw [hlen, validateLoop] at h
    simp [closeScopes, bind, Except.bind] at h
  | succ turns =>
    rw [hlen, validateLoop] at h
    obtain ⟨stack, hclose, h⟩ := except_bind_ok h
    cases hclose
    rw [if_neg (by omega)] at h
    obtain ⟨⟨next, stack'⟩, hone, h⟩ := except_bind_ok h
    have hlt : 0 < body.length := by omega
    obtain ⟨hmove, hnested, hdepth⟩ := validateOne_step hlt zero_le zero_le hone
    have hcomplete := completes_of_validateLoop (by omega) hnested hdepth h
    obtain ⟨d, mid, hd, hspans, hend⟩ := value_of_validateOne hlt le_rfl zero_le hone hcomplete
    refine ⟨d, hd, ?_⟩
    have hbody := hspans.1
    have hmid : mid = body.length := hend
    rw [hmid, drop_length, append_nil] at hbody
    exact hbody

end Sound

section Complete

variable {body t : Bytes} {off limit : Nat}

theorem validateStr_of_drop {s : Bytes} (hs : StrFits s) (hlimit : off + (emitStr s).length ≤ limit)
    (h : body.drop off = emitStr s ++ t) : (∃ tag, body[off]? = some tag ∧ isStringTag tag = true) ∧
      ∃ dataAt, validateStr body off limit = .ok (dataAt, off + (emitStr s).length) := by
  have hutf8 := hs.1
  have hlen := hs.2
  rw [emitStr, append_assoc] at h
  rw [emitStr, length_append] at hlimit ⊢
  suffices hhead : (∃ tag, body[off]? = some tag ∧ isStringTag tag = true) ∧
      strExtent body off limit = .ok (off + (strHeader s.length).length, s.length) by
    refine ⟨hhead.1, off + (strHeader s.length).length, ?_⟩
    have hdata : (body.drop (off + (strHeader s.length).length)).take s.length = s := by
      rw [drop_add_of_drop h, take_left]
    rw [validateStr, hhead.2]
    simp only [bind, Except.bind]
    rw [if_neg (by omega), hdata, if_pos hutf8, add_assoc]
  have hend := add_length_le_of_drop (strHeader_ne_nil s.length) h
  rw [strHeader] at h hlimit hend ⊢
  by_cases hfix : s.length ≤ fixstrMaxLen
  · rw [if_pos hfix] at h hlimit hend ⊢
    rw [fixstrMaxLen] at hfix
    have htag := fixstr_tag hfix
    have hstr : isFixstr (fixstrBase + UInt8.ofNat s.length) = true := by
      rw [isFixstr_iff, htag]
      omega
    have hcount : (fixstrBase + UInt8.ofNat s.length - fixstrBase).toNat = s.length := by
      rw [fixstr_len hstr, htag]
      omega
    rw [singleton_append] at h
    refine ⟨⟨_, getElem?_of_drop h, by rw [isStringTag, hstr, Bool.or_true]⟩, ?_⟩
    rw [strExtent, getElem?_of_drop h]
    simp only
    rw [if_pos hstr, hcount]
    rfl
  · rw [if_neg hfix] at h hlimit hend ⊢
    rw [fixstrMaxLen] at hfix
    by_cases hwide : s.length < str24MinLen
    · rw [if_pos hwide] at h hlimit hend ⊢
      rw [cons_append, cons_append, nil_append] at h
      have hbyte : (UInt8.ofNat s.length).toNat = s.length := by
        rw [str24MinLen] at hwide
        rw [UInt8.toNat_ofNat', Nat.mod_eq_of_lt hwide]
      simp only [length_cons, length_nil] at hlimit
      refine ⟨⟨_, getElem?_of_drop h, by decide⟩, ?_⟩
      rw [strExtent, getElem?_of_drop h]
      simp only
      rw [if_neg (by decide), if_pos trivial, if_neg (by omega), getElem?_of_drop (drop_succ_of_drop h)]
      simp only
      rw [hbyte, if_neg (by rw [str8MinLen]; omega)]
      rfl
    · rw [if_neg hwide] at h hlimit hend ⊢
      rw [cons_append] at h
      rw [length_cons, leBytes_length] at hlimit hend
      refine ⟨⟨_, getElem?_of_drop h, by decide⟩, ?_⟩
      rw [strExtent, getElem?_of_drop h]
      simp only
      rw [if_neg (by decide), if_neg (by decide), if_neg (by omega),
        readU24_of_drop hlen (by omega) (drop_succ_of_drop h)]
      simp only
      rw [if_neg hwide, length_cons, leBytes_length]

variable {stack : List Scope}

private theorem validateOne_key_of_drop {key : Bytes} (hkey : StrFits key)
    (hlimit : off + (emitStr key).length ≤ limit) (h : body.drop off = emitStr key ++ t) :
    validateOne body off limit true stack = .ok (off + (emitStr key).length, afterKey stack) := by
  obtain ⟨⟨tag, htag, hstring⟩, dataAt, hstr⟩ := validateStr_of_drop hkey hlimit h
  rw [validateOne, htag]
  simp only [if_true]
  rw [hstring, hstr]
  rfl

private theorem take_drop_of_drop {k : Bytes} (h : body.drop off = k ++ t) (hlimit : off + k.length ≤ limit) :
    ∃ t', (body.take limit).drop off = k ++ t' := by
  refine ⟨t.take (limit - off - k.length), ?_⟩
  rw [drop_take, h, take_append, take_of_length_le (by omega)]

private theorem validateOne_i64_of_drop {v : Int64} (hlimit : off + (emitI64 v).length ≤ limit)
    (h : body.drop off = emitI64 v ++ t) :
    validateOne body off limit false stack = .ok (off + (emitI64 v).length, afterValue stack) := by
  rw [emitI64] at h hlimit ⊢
  by_cases hfix : isFixintValue v = true
  · rw [if_pos hfix] at h ⊢
    have htag := (fixint_of_value hfix).1
    have hstring : ¬ isStringTag v.toUInt64.toUInt8 = true := by
      have hrange := (isFixint_iff _).mp htag
      intro hstring
      rw [isStringTag, Bool.or_eq_true, Bool.or_eq_true, beq_iff_eq, beq_iff_eq, isFixstr_iff] at hstring
      rcases hstring with (h | h) | h
      · rw [h] at hrange
        exact absurd hrange (by decide)
      · rw [h] at hrange
        exact absurd hrange (by decide)
      · omega
    rw [validateOne, getElem?_of_drop h]
    simp only [Bool.false_eq_true, if_false]
    rw [if_neg hstring, if_pos htag]
    rfl
  · rw [if_neg hfix] at h hlimit ⊢
    rw [length_cons] at hlimit
    rw [cons_append] at h
    obtain ⟨t', htake⟩ := take_drop_of_drop (drop_succ_of_drop h) (show _ ≤ limit by omega)
    rw [validateOne, getElem?_of_drop h]
    simp only [Bool.false_eq_true, if_false]
    iterate 3 rw [if_neg (by decide)]
    rw [if_pos trivial, htake, decodeVarint_encodeVarint]
    simp only
    rw [unzigzag_zigzag, if_neg hfix, length_cons]
    congr 2
    omega

private theorem validateOne_scalar_of_drop {s : Scalar} (hs : s.Fits)
    (hlimit : off + (emitScalar s).length ≤ limit) (h : body.drop off = emitScalar s ++ t) :
    validateOne body off limit false stack = .ok (off + (emitScalar s).length, afterValue stack) := by
  cases s with
  | null =>
    rw [validateOne, getElem?_of_drop h]
    rfl
  | bool b =>
    rw [validateOne, getElem?_of_drop h]
    cases b <;> rfl
  | i64 v => exact validateOne_i64_of_drop hlimit h
  | f64 bits =>
    have hfinite : (⟨bits⟩ : Binary64).isFinite = true := hs
    rw [emitScalar, emitF64] at h hlimit ⊢
    rw [length_cons, leBytes_length] at hlimit ⊢
    have hdata : (body.drop (off + 1)).take 8 = leBytes 8 bits.toNat := by
      rw [drop_succ_of_drop h]
      apply take_left'
      exact leBytes_length _ _
    rw [validateOne, getElem?_of_drop h]
    simp only [Bool.false_eq_true, if_false]
    iterate 4 rw [if_neg (by decide)]
    rw [if_pos trivial,
      if_neg (by omega), hdata, leValue_leBytes bits.toNat_lt, UInt64.ofNat_toNat, if_pos hfinite]
  | str s =>
    obtain ⟨⟨tag, htag, hstring⟩, dataAt, hstr⟩ := validateStr_of_drop hs hlimit h
    rw [validateOne, htag]
    simp only [Bool.false_eq_true, if_false]
    rw [if_pos hstring, hstr]
    rfl

private theorem validateOne_container_of_drop {isObj : Bool} {inner : Bytes}
    (hinner : inner.length < 2 ^ 24) (hdepth : stack.length ≠ depthMax)
    (hlimit : off + (container (if isObj then tagObj else tagArr) inner).length ≤ limit)
    (h : body.drop off = container (if isObj then tagObj else tagArr) inner ++ t) :
    validateOne body off limit false stack =
      .ok (off + 4, ⟨off + 4 + inner.length, isObj, isObj⟩ :: afterValue stack) := by
  obtain ⟨htag, hlen, -, -⟩ := container_parts hinner h
  rw [container, length_cons, length_append, leBytes_length] at hlimit
  rw [validateOne, htag]
  simp only [Bool.false_eq_true, if_false]
  cases isObj with
  | false | true =>
    iterate 5 rw [if_neg (by decide)]
    rw [if_pos (by decide), if_neg (by omega), if_neg (by rw [afterValue_length]; exact hdepth), hlen]
    simp only
    rw [if_neg (by omega)]
    rfl

/-- So many turns of the loop, from one position and stack to another. -/
def Passes (body : Bytes) (turns off : Nat) (stack : List Scope) (rootSeen : Bool) (next : Nat)
    (stack' : List Scope) : Prop :=
  ∀ more, validateLoop body (more + turns) off stack rootSeen = validateLoop body more next stack' true

theorem Passes.refl (stack : List Scope) : Passes body 0 off stack true off stack := fun _ => rfl

theorem Passes.trans {m n mid next : Nat} {stack' stack'' : List Scope} {rootSeen : Bool}
    (h : Passes body m off stack rootSeen mid stack') (h' : Passes body n mid stack' true next stack'') :
    Passes body (n + m) off stack rootSeen next stack'' := by
  intro more
  rw [← add_assoc, h, h']

theorem limitOf_cons (stop : Nat) (isObj expectsKey : Bool) (rest : List Scope) :
    limitOf body (⟨stop, isObj, expectsKey⟩ :: rest) = stop := rfl

theorem Passes.turn {next : Nat} {stack' : List Scope} {rootSeen : Bool} (hoff : off < limitOf body stack)
    (hlimit : limitOf body stack ≤ body.length) (hdue : (stack.isEmpty && rootSeen) = false)
    (h : validateOne body off (limitOf body stack) (keyDue stack) stack = .ok (next, stack')) :
    Passes body 1 off stack rootSeen next stack' := by
  intro more
  have hclose : closeScopes off stack = .ok stack := by
    cases stack with
    | nil => rfl
    | cons top rest =>
      rw [limitOf] at hoff
      rw [closeScopes, if_pos (by omega)]
  rw [validateLoop, hclose]
  simp only [bind, Except.bind]
  rw [if_neg (by omega), hdue, h]
  rfl

/-- A scope that ends here closes without a turn. -/
theorem Passes.close {isObj : Bool} : Passes body 0 off (⟨off, isObj, isObj⟩ :: stack) true off stack := by
  intro more
  have hclose : closeScopes off (⟨off, isObj, isObj⟩ :: stack) = closeScopes off stack := by
    rw [closeScopes, if_neg (by simp), if_neg (by cases isObj <;> simp)]
  cases more with
  | zero => rw [validateLoop, validateLoop, hclose]
  | succ more => rw [add_zero, validateLoop, validateLoop, hclose]

/-- A document passes wherever its encoding stands at a value position, in at most a turn for each byte. -/
def ValuePasses (room : Nat) (d : Doc) : Prop :=
  ∀ (body t : Bytes) (off : Nat) (stack : List Scope) (rootSeen : Bool), body.drop off = d.bytes ++ t →
    off + d.bytes.length ≤ limitOf body stack → limitOf body stack ≤ body.length → keyDue stack = false →
    (stack.isEmpty && rootSeen) = false → stack.length + room ≤ depthMax →
    ∃ turns ≤ d.bytes.length, Passes body turns off stack rootSeen (off + d.bytes.length) (afterValue stack)

private theorem items_pass {room stop : Nat} {items : List Doc} {rest : List Scope} (hitems : ∀ d ∈ items, ValuePasses room d)
    (hdepth : rest.length + 1 + room ≤ depthMax) (h : body.drop off = itemsBytes items ++ t)
    (hlimit : off + (itemsBytes items).length ≤ stop) (hstop : stop ≤ body.length) :
    ∃ turns ≤ (itemsBytes items).length, Passes body turns off (⟨stop, false, false⟩ :: rest) true
      (off + (itemsBytes items).length) (⟨stop, false, false⟩ :: rest) := by
  induction items generalizing off with
  | nil => exact ⟨0, le_rfl, Passes.refl _⟩
  | cons d items ih =>
    rw [itemsBytes] at h hlimit ⊢
    rw [append_assoc] at h
    rw [length_append] at hlimit ⊢
    obtain ⟨m, hm, hvalue⟩ := hitems d mem_cons_self body _ off (⟨stop, false, false⟩ :: rest) true h
      (by rw [limitOf_cons]; omega) hstop rfl rfl hdepth
    obtain ⟨n, hn, hrest⟩ := ih (forall_mem_cons.mp hitems).2 (drop_add_of_drop h) (by omega)
    refine ⟨n + m, by omega, ?_⟩
    rw [← add_assoc]
    exact hvalue.trans hrest

private theorem members_pass {room stop : Nat} {members : List (Bytes × Doc)} {rest : List Scope}
    (hkeys : ∀ x ∈ members, StrFits x.1) (hmembers : ∀ x ∈ members, ValuePasses room x.2)
    (hdepth : rest.length + 1 + room ≤ depthMax) (h : body.drop off = membersBytes members ++ t)
    (hlimit : off + (membersBytes members).length ≤ stop) (hstop : stop ≤ body.length) :
    ∃ turns ≤ (membersBytes members).length, Passes body turns off (⟨stop, true, true⟩ :: rest) true
      (off + (membersBytes members).length) (⟨stop, true, true⟩ :: rest) := by
  induction members generalizing off with
  | nil => exact ⟨0, le_rfl, Passes.refl _⟩
  | cons x members ih =>
    obtain ⟨key, d⟩ := x
    rw [membersBytes] at h hlimit ⊢
    rw [append_assoc, append_assoc] at h
    rw [length_append, length_append] at hlimit ⊢
    have hpos := length_pos_of_ne_nil (emitStr_ne_nil key)
    have hvalue := drop_add_of_drop h
    have hkey : Passes body 1 off (⟨stop, true, true⟩ :: rest) true (off + (emitStr key).length)
        (⟨stop, true, false⟩ :: rest) := by
      have hlimit' : off + (emitStr key).length ≤ limitOf body (⟨stop, true, true⟩ :: rest) := by
        rw [limitOf_cons]
        omega
      exact Passes.turn (by omega) hstop rfl (validateOne_key_of_drop (hkeys _ mem_cons_self) hlimit' h)
    obtain ⟨m, hm, hvalue'⟩ := hmembers (key, d) mem_cons_self body _ _ (⟨stop, true, false⟩ :: rest) true hvalue
      (by rw [limitOf_cons]; simp only; omega) hstop rfl rfl hdepth
    obtain ⟨n, hn, hrest⟩ := ih (forall_mem_cons.mp hkeys).2
      (forall_mem_cons.mp hmembers).2 (drop_add_of_drop hvalue) (by omega)
    simp only at hm
    refine ⟨n + (m + 1), by omega, ?_⟩
    have hnext : off + ((emitStr key).length + (d.bytes.length + (membersBytes members).length)) =
        off + (emitStr key).length + d.bytes.length + (membersBytes members).length := by omega
    rw [hnext]
    exact (hkey.trans hvalue').trans hrest

/-- The turns of a container: its header, its parts, and no turn to close it. -/
private theorem container_passes {isObj : Bool} {inner : Bytes} {stack : List Scope} {rootSeen : Bool} {m : Nat}
    (hinner : inner.length < 2 ^ 24) (hdepth : stack.length ≠ depthMax)
    (hlimit : off + (container (if isObj then tagObj else tagArr) inner).length ≤ limitOf body stack)
    (hbody : limitOf body stack ≤ body.length) (hkey : keyDue stack = false)
    (hdue : (stack.isEmpty && rootSeen) = false)
    (h : body.drop off = container (if isObj then tagObj else tagArr) inner ++ t) (hm : m ≤ inner.length)
    (hparts : Passes body m (off + 4) (⟨off + 4 + inner.length, isObj, isObj⟩ :: afterValue stack) true
      (off + 4 + inner.length) (⟨off + 4 + inner.length, isObj, isObj⟩ :: afterValue stack)) :
    ∃ turns ≤ (container (if isObj then tagObj else tagArr) inner).length,
      Passes body turns off stack rootSeen (off + (container (if isObj then tagObj else tagArr) inner).length)
        (afterValue stack) := by
  have hlen : (container (if isObj then tagObj else tagArr) inner).length = 4 + inner.length := by
    rw [container, length_cons, length_append, leBytes_length]
    omega
  have hopen : Passes body 1 off stack rootSeen (off + 4)
      (⟨off + 4 + inner.length, isObj, isObj⟩ :: afterValue stack) := by
    apply Passes.turn (by omega) hbody hdue
    rw [hkey]
    exact validateOne_container_of_drop hinner hdepth hlimit h
  refine ⟨0 + (m + 1), by omega, ?_⟩
  have hnext : off + (4 + inner.length) = off + 4 + inner.length := by omega
  rw [hlen, hnext]
  exact (hopen.trans hparts).trans Passes.close

theorem Encodable.valuePasses {room : Nat} {d : Doc} (h : Encodable room d) : ValuePasses room d := by
  induction h with
  | @scalar room s hs =>
    intro body t off stack rootSeen hdrop hlimit hbody hkey hdue hdepth
    have hpos := length_pos_of_ne_nil (Doc.bytes_ne_nil (.scalar s))
    refine ⟨1, hpos, ?_⟩
    rw [Doc.bytes] at hdrop hlimit hpos ⊢
    apply Passes.turn (by omega) hbody hdue
    rw [hkey]
    exact validateOne_scalar_of_drop hs hlimit hdrop
  | @arr room items hitems hlen ih =>
    intro body t off stack rootSeen hdrop hlimit hbody hkey hdue hdepth
    rw [Doc.bytes] at hdrop hlimit ⊢
    obtain ⟨-, -, -, hinner⟩ := container_parts hlen hdrop
    have hend : off + 4 + (itemsBytes items).length ≤ body.length := by
      rw [container, length_cons, length_append, leBytes_length] at hlimit
      omega
    have hroom : (afterValue stack).length + 1 + room ≤ depthMax := by
      rw [afterValue_length]
      omega
    obtain ⟨m, hm, hparts⟩ := items_pass ih hroom hinner le_rfl hend
    exact @container_passes _ _ _ false _ _ _ _ hlen (by omega) hlimit hbody hkey hdue hdrop hm hparts
  | @obj room members hkeys hmembers hlen ih =>
    intro body t off stack rootSeen hdrop hlimit hbody hkey hdue hdepth
    rw [Doc.bytes] at hdrop hlimit ⊢
    obtain ⟨-, -, -, hinner⟩ := container_parts hlen hdrop
    have hend : off + 4 + (membersBytes members).length ≤ body.length := by
      rw [container, length_cons, length_append, leBytes_length] at hlimit
      omega
    have hroom : (afterValue stack).length + 1 + room ≤ depthMax := by
      rw [afterValue_length]
      omega
    obtain ⟨m, hm, hparts⟩ := members_pass hkeys ih hroom hinner le_rfl hend
    exact @container_passes _ _ _ true _ _ _ _ hlen (by omega) hlimit hbody hkey hdue hdrop hm hparts

theorem validateBody_bytes {d : Doc} (h : Encodable depthMax d) : validateBody d.bytes = .ok () := by
  have hdrop : d.bytes.drop 0 = d.bytes ++ [] := by rw [append_nil, drop_zero]
  obtain ⟨turns, hturns, hpasses⟩ := h.valuePasses d.bytes [] 0 [] false hdrop (by rw [limitOf]; omega) le_rfl rfl rfl
    (by simp)
  have hrun := hpasses (d.bytes.length - turns)
  rw [Nat.sub_add_cancel hturns, zero_add] at hrun
  rw [validateBody, hrun]
  cases d.bytes.length - turns with
  | zero => rfl
  | succ more =>
    rw [validateLoop]
    exact if_pos rfl

/-- The bytes that pass are the encodings of documents. -/
theorem validateBody_eq_ok : validateBody body = .ok () ↔ ∃ d, Encodable depthMax d ∧ body = d.bytes := by
  constructor
  · exact encodable_of_validateBody
  · intro h
    obtain ⟨d, hd, rfl⟩ := h
    exact validateBody_bytes hd

end Complete

end InfinityDB
