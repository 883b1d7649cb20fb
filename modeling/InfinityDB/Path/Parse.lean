import InfinityDB.Path.Codec

/-!
# The path parser

One pass over the text from left to right. A descend binds exactly one selector, so nothing nests.
Every path it returns is well formed: keys are UTF-8, steps are not zero, unions have two to sixteen
members, and there are at most as many segments as the bytecode allows.
-/

namespace InfinityDB

open Lib List Option

namespace PathText

/-- A character of the grammar as its byte. -/
def ascii (c : Char) : UInt8 := UInt8.ofNat c.toNat

def isDigit (b : UInt8) : Bool := ascii '0' ≤ b && b ≤ ascii '9'

def isAlpha (b : UInt8) : Bool := (ascii 'a' ≤ b && b ≤ ascii 'z') || (ascii 'A' ≤ b && b ≤ ascii 'Z')

/-- Space and tab, inside brackets only. -/
def isWs (b : UInt8) : Bool := b == ascii ' ' || b == 9

def skipWs (text : Bytes) (pos : Nat) : Nat := pos + ((text.drop pos).takeWhile isWs).length

def startsShorthand (b : UInt8) : Bool := isAlpha b || b == ascii '_' || 0x80 ≤ b

def continuesShorthand (b : UInt8) : Bool := isAlpha b || isDigit b || b == ascii '_' || 0x80 ≤ b

/-- The longest name from a position whose first byte starts one. -/
def takeShorthand (text : Bytes) (pos : Nat) : Bytes × Nat :=
  let name := (text.drop pos).take 1 ++ (text.drop (pos + 1)).takeWhile continuesShorthand
  (name, pos + name.length)

def fitsI64 (v : Int) : Bool := -2 ^ 63 ≤ v && v < 2 ^ 63

/-- The digits of a number, accumulated below zero so that the least number has room. -/
def accumulate : Bytes → Int → Option Int
  | [], value => some value
  | b :: rest, value =>
    let scaled := value * 10
    if fitsI64 scaled then
      let value := scaled - (b - ascii '0').toNat
      if fitsI64 value then accumulate rest value else none
    else none

/-- An optional number, and the position after it and the blanks that follow. -/
def parseOptInt (text : Bytes) (pos : Nat) : Except PathError (Option Int64 × Nat) :=
  let negative := text[pos]? == some (ascii '-')
  let digitsAt := if negative then pos + 1 else pos
  let digits := (text.drop digitsAt).takeWhile isDigit
  if digits.isEmpty then
    if negative then .error ⟨pos, .badNumber⟩ else .ok (none, skipWs text pos)
  -- a leading zero
  else if digits.head? = some (ascii '0') ∧ 1 < digits.length then .error ⟨pos, .badNumber⟩
  else
    match accumulate digits 0 with
    | none => .error ⟨pos, .badNumber⟩
    | some value =>
      if negative then
        if value = 0 then .error ⟨pos, .badNumber⟩
        else .ok (some (Int64.ofInt value), skipWs text (digitsAt + digits.length))
      else if fitsI64 (-value) then .ok (some (Int64.ofInt (-value)), skipWs text (digitsAt + digits.length))
      else .error ⟨pos, .badNumber⟩

/-- `int`, or `int? ":" int? (":" int?)?`; a zero step is refused. -/
def parseIndexOrSlice (text : Bytes) (pos : Nat) : Except PathError (Ast.Member × Nat) := do
  let (start, i) ← parseOptInt text pos
  if text[i]? ≠ some (ascii ':') then
    match start with
    | none => .error ⟨pos, .unexpectedChar⟩
    | some v => .ok (.index v, i)
  else do
    let (stop, i) ← parseOptInt text (skipWs text (i + 1))
    if text[i]? = some (ascii ':') then do
      let stepAt := skipWs text (i + 1)
      let (step, next) ← parseOptInt text stepAt
      if step = some 0 then .error ⟨stepAt, .badSlice⟩ else .ok (.slice ⟨start, stop, step⟩, next)
    else .ok (.slice ⟨start, stop, none⟩, i)

def hexDigit (b : UInt8) : Option Nat :=
  if isDigit b then some (b - ascii '0').toNat
  else if ascii 'a' ≤ b && b ≤ ascii 'f' then some ((b - ascii 'a').toNat + 10)
  else if ascii 'A' ≤ b && b ≤ ascii 'F' then some ((b - ascii 'A').toNat + 10)
  else none

/-- The four hexadecimal digits that open a tail. -/
def parseHex4 : Bytes → Option Nat
  | a :: b :: c :: d :: _ => do
    let a ← hexDigit a
    let b ← hexDigit b
    let c ← hexDigit c
    let d ← hexDigit d
    some (((a * 16 + b) * 16 + c) * 16 + d)
  | _ => none

/-- The scalar value of the escape that opens a tail, `\uXXXX` or a surrogate pair, and its
length; `none` is a bad escape. -/
def unicodeEscape (tail : Bytes) : Option (Nat × Nat) := do
  let hi ← parseHex4 (tail.drop 2)
  if 0xD800 ≤ hi ∧ hi ≤ 0xDBFF then do
    let low := tail.drop 6
    if low.head? = some (ascii '\\') ∧ low[1]? = some (ascii 'u') then do
      let lo ← parseHex4 (low.drop 2)
      if 0xDC00 ≤ lo ∧ lo ≤ 0xDFFF then some (0x10000 + (hi - 0xD800) * 1024 + (lo - 0xDC00), 12) else none
    else none
  else if 0xDC00 ≤ hi ∧ hi ≤ 0xDFFF then none
  else some (hi, 6)

def shortEscape (esc : UInt8) : Option UInt8 :=
  if esc = ascii '\'' ∨ esc = ascii '"' ∨ esc = ascii '\\' ∨ esc = ascii '/' then some esc
  else if esc = ascii 'b' then some 0x08
  else if esc = ascii 'f' then some 0x0C
  else if esc = ascii 'n' then some 0x0A
  else if esc = ascii 'r' then some 0x0D
  else if esc = ascii 't' then some 0x09
  else none

/-- The loop of a quoted name at a position, with the bytes read so far. A turn passes at least one
byte; without turns left the text is at its end. -/
def quotedFrom (text : Bytes) (start : Nat) (quote : UInt8) : Nat → Nat → Bytes → Except PathError (Bytes × Nat)
  | 0, _, _ => .error ⟨start, .unterminated⟩
  | turns + 1, i, name =>
    match text[i]? with
    | none => .error ⟨start, .unterminated⟩
    | some b =>
      if b = quote then .ok (name, i + 1)
      else if b = ascii '\\' then
        match text[i + 1]? with
        | none => .error ⟨i, .badEscape⟩
        | some esc =>
          if esc = ascii 'u' then
            match unicodeEscape (text.drop i) with
            | none => .error ⟨i, .badEscape⟩
            | some (code, used) => quotedFrom text start quote turns (i + used) (name ++ utf8OfCode code)
          else
            match shortEscape esc with
            | none => .error ⟨i, .badEscape⟩
            | some byte => quotedFrom text start quote turns (i + 2) (name ++ [byte])
      else if b < 0x20 then .error ⟨i, .unexpectedChar⟩
      else quotedFrom text start quote turns (i + 1) (name ++ [b])

def parseQuoted (text : Bytes) (start : Nat) (quote : UInt8) : Except PathError (Bytes × Nat) :=
  quotedFrom text start quote (text.length - start) (start + 1) []

def parseSelector (text : Bytes) (pos : Nat) : Except PathError (Ast.Member × Nat) :=
  match text[pos]? with
  | none => .error ⟨pos, .unterminated⟩
  | some b =>
    if b = ascii '\'' ∨ b = ascii '"' then do
      let (name, next) ← parseQuoted text pos b
      .ok (.name name, next)
    else if b = ascii '-' ∨ isDigit b ∨ b = ascii ':' then parseIndexOrSlice text pos
    else if b = ascii '?' ∧ text[pos + 1]? = some (ascii '(') then .error ⟨pos, .filterUnsupported⟩
    else if b = ascii '*' then .error ⟨pos, .badUnionMember⟩
    else .error ⟨pos, .unexpectedChar⟩

/-- The members up to the closing bracket, with the count of those still allowed, and the position
of the bracket. -/
def parseMembers (text : Bytes) (start : Nat) : Nat → Nat → Except PathError (List Ast.Member × Nat)
  | room, pos => do
    let (member, next) ← parseSelector text pos
    match room with
    | 0 => .error ⟨pos, .badUnionMember⟩
    | room + 1 =>
      let pos := skipWs text next
      match text[pos]? with
      | none => .error ⟨start, .unterminated⟩
      | some b =>
        if b = ascii ']' then .ok ([member], pos)
        else if b = ascii ',' then do
          let (members, close) ← parseMembers text start room (skipWs text (pos + 1))
          .ok (member :: members, close)
        else .error ⟨pos, .unexpectedChar⟩

def parseBracket (text : Bytes) (start : Nat) : Except PathError (Ast.Leaf × Nat) :=
  if text[start]? ≠ some (ascii '[') then .error ⟨start, .unexpectedChar⟩
  else
    let pos := skipWs text (start + 1)
    if text[pos]? = some (ascii '*') then
      let close := skipWs text (pos + 1)
      if text[close]? = some (ascii ']') then .ok (.childAny, close + 1)
      -- the wildcard is only valid alone
      else if text[close]? = some (ascii ',') then .error ⟨close, .badUnionMember⟩
      else .error ⟨min close text.length, .unexpectedChar⟩
    else do
      let (members, close) ← parseMembers text start unionMembersMax pos
      match members with
      | [.name key] => .ok (.child key, close + 1)
      | [.index i] => .ok (.index i, close + 1)
      | [.slice spec] => .ok (.slice spec, close + 1)
      | members => .ok (.union members, close + 1)

/-- One segment: `.name`, `.*`, `..sel`, or `[...]`. -/
def parseSegment (text : Bytes) (pos : Nat) : Except PathError (Ast.Segment × Nat) :=
  match text[pos]? with
  -- unreachable: the loop stops at the end of the text
  | none => .error ⟨pos, .unexpectedChar⟩
  | some b =>
    if b = ascii '[' then do
      let (s, next) ← parseBracket text pos
      .ok (.leaf s, next)
    else if b = ascii '.' then
      if text[pos + 1]? = some (ascii '.') then
        match text[pos + 2]? with
        | none => .error ⟨pos, .trailingDescend⟩
        | some c =>
          if c = ascii '[' then do
            let (s, next) ← parseBracket text (pos + 2)
            .ok (.descend s, next)
          else if c = ascii '*' then .ok (.descend .childAny, pos + 3)
          else if startsShorthand c then
            let (name, next) := takeShorthand text (pos + 2)
            .ok (.descend (.child name), next)
          else if c = ascii '?' ∧ text[pos + 3]? = some (ascii '(') then .error ⟨pos + 2, .filterUnsupported⟩
          else .error ⟨pos + 2, .unexpectedChar⟩
      else
        match text[pos + 1]? with
        | none => .error ⟨min (pos + 1) text.length, .unexpectedChar⟩
        | some c =>
          if c = ascii '*' then .ok (.leaf .childAny, pos + 2)
          else if startsShorthand c then
            let (name, next) := takeShorthand text (pos + 1)
            .ok (.leaf (.child name), next)
          else .error ⟨min (pos + 1) text.length, .unexpectedChar⟩
    else if b = ascii '?' ∧ text[pos + 1]? = some (ascii '(') then .error ⟨pos, .filterUnsupported⟩
    else .error ⟨pos, .unexpectedChar⟩

/-- The loop over the segments, with the count of those still allowed. -/
def parseSegments (text : Bytes) : Nat → Nat → Except PathError (List Ast.Segment)
  | 0, pos => if pos < text.length then .error ⟨pos, .pathTooDeep⟩ else .ok []
  | left + 1, pos =>
    if pos < text.length then do
      let (segment, next) ← parseSegment text pos
      let rest ← parseSegments text left next
      .ok (segment :: rest)
    else .ok []

def parse (text : Bytes) : Except PathError PathAst := do
  if text.head? = some (ascii '$') then
    let segments ← parseSegments text segmentsMax 1
    .ok ⟨false, segments⟩
  -- the legacy roots
  else if text = [] ∨ text = [ascii '.'] then .ok ⟨true, []⟩
  -- a legacy path may open with a bare name
  else if text.head?.any startsShorthand then
    let (name, next) := takeShorthand text 0
    let segments ← parseSegments text (segmentsMax - 1) next
    .ok ⟨true, .leaf (.child name) :: segments⟩
  else
    let segments ← parseSegments text segmentsMax 0
    .ok ⟨true, segments⟩

/-- The offset of the first byte that breaks UTF-8. -/
def validUpTo (text : Bytes) : Nat := ((List.range (text.length + 1)).filter fun n => validUtf8 (text.take n)).foldl max 0

def parseAst (text : Bytes) (maxBytes : Nat) : Except PathError PathAst :=
  if min maxBytes pathBytesCeiling < text.length then .error ⟨0, .pathTooLong⟩
  else if !validUtf8 text then .error ⟨validUpTo text, .invalidUtf8⟩
  else parse text

/-- A position between two characters. -/
def Boundary (text : Bytes) (pos : Nat) : Prop := validUtf8 (text.drop pos) = true

section WellFormed

variable {text : Bytes} {pos : Nat}

variable {b : UInt8} {next start : Nat}

theorem Boundary.succ (h : Boundary text pos) (hb : text[pos]? = some b) (hascii : b < 0x80) :
    Boundary text (pos + 1) := by
  rw [Boundary, drop_of_getElem? hb, validUtf8_ascii hascii] at h
  exact h

theorem Boundary.takeWhile {p : UInt8 → Bool} (hp : ∀ b, 0x80 ≤ b → p b = false) (h : Boundary text pos) :
    Boundary text (pos + ((text.drop pos).takeWhile p).length) := by
  have hsplit : text.drop pos = (text.drop pos).takeWhile p ++ (text.drop pos).dropWhile p :=
    takeWhile_append_dropWhile.symm
  rw [Boundary, drop_add_of_drop hsplit]
  exact (validUtf8_takeWhile (.inr hp) h).2

theorem Boundary.skipWs (h : Boundary text pos) : Boundary text (skipWs text pos) := by
  apply h.takeWhile
  intro b hb
  by_contra hws
  have hws : isWs b = true := by simpa using hws
  rw [isWs, Bool.or_eq_true, beq_iff_eq, beq_iff_eq] at hws
  rcases hws with rfl | rfl <;> exact absurd hb (by decide)

private theorem not_isDigit (hb : 0x80 ≤ b) : isDigit b = false := by
  by_contra hdigit
  have hdigit : isDigit b = true := by simpa using hdigit
  rw [isDigit, Bool.and_eq_true, decide_eq_true_eq, decide_eq_true_eq] at hdigit
  exact absurd (UInt8.le_trans hb hdigit.2) (by decide)

/-- A name as the longest run of name bytes. -/
theorem takeShorthand_eq (hb : text[pos]? = some b) (hstart : startsShorthand b = true) :
    (takeShorthand text pos).1 = (text.drop pos).takeWhile continuesShorthand := by
  have hcont : continuesShorthand b = true := by
    rw [startsShorthand, Bool.or_eq_true, Bool.or_eq_true] at hstart
    rw [continuesShorthand, Bool.or_eq_true, Bool.or_eq_true, Bool.or_eq_true]
    rcases hstart with (h | h) | h
    · exact .inl (.inl (.inl h))
    · exact .inl (.inr h)
    · exact .inr h
  rw [takeShorthand, drop_of_getElem? hb, takeWhile_cons, if_pos hcont]
  rfl

theorem takeShorthand_wf (h : Boundary text pos) (hb : text[pos]? = some b) (hstart : startsShorthand b = true) :
    validUtf8 (takeShorthand text pos).1 = true ∧ Boundary text (takeShorthand text pos).2 := by
  have hhigh : ∀ b, 0x80 ≤ b → continuesShorthand b = true := by
    intro b hb
    rw [continuesShorthand, Bool.or_eq_true, decide_eq_true_eq]
    exact .inr hb
  have hsplit : text.drop pos = (text.drop pos).takeWhile continuesShorthand ++
      (text.drop pos).dropWhile continuesShorthand := takeWhile_append_dropWhile.symm
  have hend : (takeShorthand text pos).2 = pos + (takeShorthand text pos).1.length := rfl
  obtain ⟨hname, hrest⟩ := validUtf8_takeWhile (.inl hhigh) h
  rw [hend, takeShorthand_eq hb hstart, Boundary, drop_add_of_drop hsplit]
  exact ⟨hname, hrest⟩

private theorem parseOptInt_boundary {v : Option Int64} (h : Boundary text pos)
    (hok : parseOptInt text pos = .ok (v, next)) : Boundary text next := by
  have hdigits : Boundary text (if text[pos]? == some (ascii '-') then pos + 1 else pos) := by
    split
    next hneg => exact h.succ (beq_iff_eq.mp hneg) (by decide)
    · exact h
  rw [parseOptInt] at hok
  generalize (text[pos]? == some (ascii '-')) = negative at hdigits hok
  generalize (if negative = true then pos + 1 else pos) = digitsAt at hdigits hok
  have hnext := (hdigits.takeWhile fun b hb => not_isDigit hb).skipWs
  split at hok
  · split at hok
    · simp at hok
    cases hok
    exact h.skipWs
  · split at hok
    · simp at hok
    split at hok
    · simp at hok
    split at hok
    · split at hok
      · simp at hok
      cases hok
      exact hnext
    · obtain ⟨-, hok⟩ := check_ok hok
      cases hok
      exact hnext

private theorem parseIndexOrSlice_wf {m : Ast.Member} (h : Boundary text pos)
    (hok : parseIndexOrSlice text pos = .ok (m, next)) : m.WellFormed ∧ Boundary text next := by
  rw [parseIndexOrSlice] at hok
  obtain ⟨⟨start, i⟩, hstart, hok⟩ := except_bind_ok hok
  have hi := parseOptInt_boundary h hstart
  simp only at hok
  split at hok
  · cases start with
    | none => simp at hok
    | some v =>
      cases hok
      exact ⟨trivial, hi⟩
  next hcolon =>
    have hafter := (hi.succ (not_ne_iff.mp hcolon) (by decide)).skipWs
    obtain ⟨⟨stop, j⟩, hstop, hok⟩ := except_bind_ok hok
    have hj := parseOptInt_boundary hafter hstop
    simp only at hok
    split at hok
    next hcolon' =>
      have hafter' := (hj.succ hcolon' (by decide)).skipWs
      obtain ⟨⟨step, k⟩, hstep, hok⟩ := except_bind_ok hok
      simp only at hok
      obtain ⟨hzero, hok⟩ := guard_ok hok
      cases hok
      exact ⟨hzero, parseOptInt_boundary hafter' hstep⟩
    · cases hok
      exact ⟨by rw [Ast.Member.WellFormed, Ast.SliceSpec.WellFormed]; simp, hj⟩

/-- The offset of a byte in a range of bytes. -/
private theorem sub_toNat_le {a c : UInt8} (h : (a ≤ b && b ≤ c) = true) : (b - a).toNat ≤ c.toNat - a.toNat ∧ b ≤ c := by
  rw [Bool.and_eq_true, decide_eq_true_eq, decide_eq_true_eq] at h
  have hle := UInt8.le_iff_toNat_le.mp h.2
  rw [UInt8.toNat_sub_of_le _ _ h.1]
  exact ⟨by omega, h.2⟩

private theorem hexDigit_lt {n : Nat} (h : hexDigit b = some n) : n < 16 ∧ b < 0x80 := by
  have hrange {a c : UInt8} {n base : Nat} (hb : (a ≤ b && b ≤ c) = true) (hn : (b - a).toNat + base = n)
      (hspan : c.toNat - a.toNat + base < 16) (hc : c < 0x80) : n < 16 ∧ b < 0x80 := by
    obtain ⟨hle, hbc⟩ := sub_toNat_le hb
    exact ⟨by omega, UInt8.lt_of_le_of_lt hbc hc⟩
  rw [hexDigit] at h
  split at h
  next hb => exact @hrange _ _ n 0 hb (some.inj h) (by decide) (by decide)
  · split at h
    next hb => exact hrange hb (some.inj h) (by decide) (by decide)
    · split at h
      next hb => exact hrange hb (some.inj h) (by decide) (by decide)
      · simp at h

private theorem parseHex4_inv {l : Bytes} {n : Nat} (h : parseHex4 l = some n) :
    ∃ k rest : Bytes, l = k ++ rest ∧ k.length = 4 ∧ (∀ b ∈ k, b < 0x80) ∧ n < 0x10000 := by
  rw [parseHex4.eq_def] at h
  split at h
  next a b c d rest =>
    simp only [bind_eq_bind, bind_eq_some_iff] at h
    obtain ⟨a', ha, b', hb, c', hc, d', hd, hn⟩ := h
    obtain ⟨ha1, ha2⟩ := hexDigit_lt ha
    obtain ⟨hb1, hb2⟩ := hexDigit_lt hb
    obtain ⟨hc1, hc2⟩ := hexDigit_lt hc
    obtain ⟨hd1, hd2⟩ := hexDigit_lt hd
    refine ⟨[a, b, c, d], rest, rfl, rfl, by simp [ha2, hb2, hc2, hd2], ?_⟩
    have := some.inj hn
    omega
  · simp at h

/-- An escape is ASCII, and the value it spells is a scalar value. -/
private theorem unicodeEscape_inv {r : Bytes} {code used : Nat}
    (h : unicodeEscape (ascii '\\' :: ascii 'u' :: r) = some (code, used)) : isScalarValue code = true ∧
      ∃ k rest : Bytes, ascii '\\' :: ascii 'u' :: r = k ++ rest ∧ k.length = used ∧ ∀ b ∈ k, b < 0x80 := by
  rw [unicodeEscape, bind_eq_bind, bind_eq_some_iff] at h
  obtain ⟨hi, hhi, h⟩ := h
  obtain ⟨k, rest, hr, hlen, hascii, hbound⟩ := parseHex4_inv hhi
  have hr : r = k ++ rest := hr
  have hmark : ∀ b ∈ [ascii '\\', ascii 'u'], b < 0x80 := by decide +kernel
  have hlow : (ascii '\\' :: ascii 'u' :: r).drop 6 = rest := by
    change r.drop 4 = rest
    rw [hr, ← hlen, drop_left]
  simp only at h
  split at h
  next hhigh =>
    rw [hlow] at h
    split at h
    next hslash =>
      rw [bind_eq_some_iff] at h
      obtain ⟨lo, hlo, h⟩ := h
      obtain ⟨k', rest', hr', hlen', hascii', -⟩ := parseHex4_inv hlo
      split at h
      next hlo =>
        obtain ⟨rfl, rfl⟩ := Prod.mk.inj (some.inj h)
        have hrest : rest = ascii '\\' :: ascii 'u' :: (k' ++ rest') := by
          match rest, hslash, hr' with
          | a :: b :: rest, hslash, hr' =>
            rw [← hr', some.inj hslash.1, some.inj hslash.2]
            rfl
        constructor
        · simp only [isScalarValue, Bool.or_eq_true, Bool.and_eq_true, decide_eq_true_eq]
          omega
        · refine ⟨[ascii '\\', ascii 'u'] ++ k ++ ([ascii '\\', ascii 'u'] ++ k'), rest', ?_, ?_, ?_⟩
          · rw [hr, hrest]
            simp
          · simp [hlen, hlen']
          · intro b hb
            simp only [mem_append] at hb
            rcases hb with (hb | hb) | hb | hb
            · exact hmark b hb
            · exact hascii b hb
            · exact hmark b hb
            · exact hascii' b hb
      · simp at h
    · simp at h
  next hnothigh =>
    split at h
    · simp at h
    rename_i hnotlow
    cases h
    constructor
    · simp only [isScalarValue, Bool.or_eq_true, Bool.and_eq_true, decide_eq_true_eq]
      omega
    · refine ⟨[ascii '\\', ascii 'u'] ++ k, rest, ?_, ?_, ?_⟩
      · rw [hr]
        simp
      · simp [hlen]
      · exact forall_mem_append.mpr ⟨hmark, hascii⟩

private theorem shortEscape_ascii {esc byte : UInt8} (h : shortEscape esc = some byte) : esc < 0x80 ∧ byte < 0x80 := by
  unfold shortEscape at h
  split at h
  next hesc =>
    cases h
    rcases hesc with rfl | rfl | rfl | rfl <;> decide
  · iterate 5
      split at h
      next hesc =>
        cases h
        subst hesc
        decide
    simp at h

/-- A byte beyond ASCII is copied. -/
private theorem quotedFrom_high {turns i : Nat} {quote : UInt8} {name r : Bytes} (hquote : quote < 0x80)
    (hdrop : text.drop i = b :: r) (hb : 0x80 ≤ b) :
    quotedFrom text start quote (turns + 1) i name = quotedFrom text start quote turns (i + 1) (name ++ [b]) := by
  have hne {a : UInt8} (ha : a < 0x80) : b ≠ a := by
    intro h
    rw [h] at hb
    exact absurd ha (UInt8.not_lt.mpr hb)
  rw [quotedFrom, getElem?_of_drop hdrop]
  simp only
  rw [if_neg (hne hquote), if_neg (hne (by decide)), if_neg (UInt8.not_lt.mpr (UInt8.le_trans (by decide) hb))]

/-- The loop of a quoted name keeps UTF-8: `c` is what is left of a character whose first bytes
have been read. -/
private theorem quotedFrom_wf {turns : Nat} {quote : UInt8} {name name' c t : Bytes} {i : Nat}
    (hquote : quote < 0x80) (hdrop : text.drop i = c ++ t) (hc : ∀ b ∈ c, 0x80 ≤ b)
    (hname : validUtf8 (name ++ c) = true) (ht : validUtf8 t = true)
    (hok : quotedFrom text start quote turns i name = .ok (name', next)) :
    validUtf8 name' = true ∧ Boundary text next := by
  induction turns generalizing i name c t with
  | zero => simp [quotedFrom] at hok
  | succ turns ih =>
    cases c with
    | cons b c =>
      rw [cons_append] at hdrop
      rw [quotedFrom_high hquote hdrop (hc b mem_cons_self)] at hok
      apply ih (drop_succ_of_drop hdrop) (forall_mem_cons.mp hc).2 ?_ ht hok
      rw [append_assoc]
      exact hname
    | nil =>
      rw [append_nil] at hname
      rw [nil_append] at hdrop
      cases t with
      | nil =>
        have hend : text[i]? = none := by
          rw [List.getElem?_eq_none_iff]
          exact drop_eq_nil_iff.mp hdrop
        rw [quotedFrom, hend] at hok
        simp at hok
      | cons b r =>
        have hnext := drop_succ_of_drop hdrop
        obtain ⟨c, t, hsplit, hchar, ht'⟩ := exists_char_of_validUtf8 ht
        rcases utf8Char_ascii hchar with ⟨a, rfl, hascii⟩ | hhigh
        · obtain ⟨rfl, rfl⟩ := List.cons.inj hsplit
          have hone {byte : UInt8} (hbyte : byte < 0x80) : validUtf8 (name ++ [byte] ++ []) = true := by
            rw [append_nil, validUtf8_append hname, validUtf8_ascii hbyte]
            rfl
          rw [quotedFrom, getElem?_of_drop hdrop] at hok
          simp only at hok
          split at hok
          · cases hok
            exact ⟨hname, by rw [Boundary, hnext]; exact ht'⟩
          split at hok
          next hslash =>
            subst hslash
            split at hok
            · simp at hok
            rename_i esc hesc
            have hr := drop_of_getElem? hesc
            rw [hnext] at hr
            split at hok
            next hu =>
              subst hu
              cases hcode : unicodeEscape (text.drop i) with
              | none =>
                rw [hcode] at hok
                simp at hok
              | some x =>
                obtain ⟨code, used⟩ := x
                rw [hcode] at hok
                rw [hdrop, hr] at hcode
                obtain ⟨hscalar, k, rest, hk, hlen, hkascii⟩ := unicodeEscape_inv hcode
                have hrest : text.drop (i + used) = [] ++ rest := by
                  rw [← hlen, nil_append]
                  apply drop_add_of_drop
                  rw [hdrop, hr, hk]
                apply ih hrest (fun _ h => absurd h not_mem_nil) ?_ ?_ hok
                · rw [append_nil, validUtf8_append hname, validUtf8_utf8OfCode hscalar]
                · rw [← validUtf8_append (validUtf8_of_ascii hkascii), ← hk, ← hr]
                  exact ht
            · split at hok
              · simp at hok
              rename_i byte hshort
              obtain ⟨hesc', hbyte⟩ := shortEscape_ascii hshort
              apply ih (c := []) rfl (fun _ h => absurd h not_mem_nil) (hone hbyte) ?_ hok
              rw [hr, validUtf8_ascii hesc'] at ht'
              exact ht'
          · obtain ⟨-, hok⟩ := guard_ok hok
            exact ih (c := []) hnext (fun _ h => absurd h not_mem_nil) (hone hascii) ht' hok
        · cases c with
          | nil => exact absurd rfl (utf8Char_ne_nil hchar)
          | cons a c =>
            obtain ⟨rfl, rfl⟩ := List.cons.inj hsplit
            rw [quotedFrom_high hquote hdrop (hhigh b mem_cons_self)] at hok
            apply ih hnext (forall_mem_cons.mp hhigh).2 ?_ ht' hok
            rw [append_assoc, validUtf8_append hname, ← append_nil ([b] ++ c)]
            exact validUtf8_char_append hchar []

private theorem parseSelector_wf {m : Ast.Member} (h : Boundary text pos)
    (hok : parseSelector text pos = .ok (m, next)) : m.WellFormed ∧ Boundary text next := by
  rw [parseSelector] at hok
  split at hok
  · simp at hok
  rename_i b hb
  split at hok
  next hquote =>
    have hascii : b < 0x80 := by
      rcases hquote with rfl | rfl <;> decide
    obtain ⟨⟨name, close⟩, hname, hok⟩ := except_bind_ok hok
    cases hok
    exact quotedFrom_wf (c := []) hascii rfl (fun _ h => absurd h not_mem_nil) rfl (h.succ hb hascii) hname
  · split at hok
    · exact parseIndexOrSlice_wf h hok
    · split at hok
      · simp at hok
      · split at hok <;> simp at hok

private theorem parseMembers_wf {room close : Nat} {members : List Ast.Member} (h : Boundary text pos)
    (hok : parseMembers text start room pos = .ok (members, close)) :
    (members.length ≤ room ∧ 0 < members.length ∧ ∀ m ∈ members, m.WellFormed) ∧
      Boundary text close ∧ text[close]? = some (ascii ']') := by
  induction room generalizing pos members with
  | zero =>
    rw [parseMembers.eq_def] at hok
    obtain ⟨⟨m, next⟩, hm, hok⟩ := except_bind_ok hok
    simp at hok
  | succ room ih =>
    rw [parseMembers.eq_def] at hok
    obtain ⟨⟨m, next⟩, hm, hok⟩ := except_bind_ok hok
    obtain ⟨hmwf, hnext⟩ := parseSelector_wf h hm
    simp only at hok
    split at hok
    · simp at hok
    rename_i b hb
    split at hok
    next hclose =>
      cases hok
      refine ⟨⟨by simp, by simp, by simpa using hmwf⟩, hnext.skipWs, ?_⟩
      rw [hb, hclose]
    · obtain ⟨hcomma, hok⟩ := check_ok hok
      obtain ⟨⟨rest, close'⟩, hrest, hok⟩ := except_bind_ok hok
      cases hok
      have hafter := (hnext.skipWs.succ hb (by rw [hcomma]; decide)).skipWs
      obtain ⟨⟨hlen, -, hall⟩, hclose⟩ := ih hafter hrest
      refine ⟨⟨Nat.succ_le_succ hlen, by simp, ?_⟩, hclose⟩
      exact forall_mem_cons.mpr ⟨hmwf, hall⟩

private theorem parseBracket_wf {s : Ast.Leaf} (h : Boundary text pos)
    (hok : parseBracket text pos = .ok (s, next)) : s.WellFormed ∧ Boundary text next := by
  rw [parseBracket] at hok
  obtain ⟨hopen, hok⟩ := guard_ok hok
  have hin := (h.succ (not_ne_iff.mp hopen) (by decide)).skipWs
  simp only at hok
  split at hok
  next hstar =>
    have hclose := (hin.succ hstar (by decide)).skipWs
    split at hok
    next hbracket =>
      cases hok
      exact ⟨trivial, hclose.succ hbracket (by decide)⟩
    · split at hok <;> simp at hok
  · obtain ⟨⟨members, close⟩, hmembers, hok⟩ := except_bind_ok hok
    obtain ⟨⟨hlen, hpos, hall⟩, hclose, hbracket⟩ := parseMembers_wf hin hmembers
    have hnext := hclose.succ hbracket (by decide)
    simp only at hok
    split at hok
    · cases hok
      exact ⟨hall _ mem_cons_self, hnext⟩
    · cases hok
      exact ⟨trivial, hnext⟩
    · cases hok
      exact ⟨hall _ mem_cons_self, hnext⟩
    next hname hindex hslice =>
      cases hok
      refine ⟨⟨⟨?_, hlen⟩, hall⟩, hnext⟩
      match members, hpos, hname, hindex, hslice with
      | [.name key], _, hname, _, _ => exact absurd rfl (hname key)
      | [.index i], _, _, hindex, _ => exact absurd rfl (hindex i)
      | [.slice spec], _, _, _, hslice => exact absurd rfl (hslice spec)
      | _ :: _ :: rest, _, _, _, _ => simp

private theorem parseSegment_wf {s : Ast.Segment} (h : Boundary text pos)
    (hok : parseSegment text pos = .ok (s, next)) : s.selector.WellFormed ∧ Boundary text next := by
  rw [parseSegment] at hok
  split at hok
  · simp at hok
  rename_i b hb
  split at hok
  · obtain ⟨⟨s', next'⟩, hs, hok⟩ := except_bind_ok hok
    cases hok
    exact parseBracket_wf h hs
  split at hok
  next hdot =>
    have hone := h.succ hb (by rw [hdot]; decide)
    split at hok
    next hdots =>
      have htwo := hone.succ hdots (by decide)
      split at hok
      · simp at hok
      rename_i c hc
      split at hok
      · obtain ⟨⟨s', next'⟩, hs, hok⟩ := except_bind_ok hok
        cases hok
        exact parseBracket_wf htwo hs
      split at hok
      next hstar =>
        cases hok
        exact ⟨trivial, htwo.succ hc (by rw [hstar]; decide)⟩
      · split at hok
        next hstart =>
          cases hok
          exact takeShorthand_wf htwo hc hstart
        · split at hok <;> simp at hok
    · split at hok
      · simp at hok
      rename_i c hc
      split at hok
      next hstar =>
        cases hok
        exact ⟨trivial, hone.succ hc (by rw [hstar]; decide)⟩
      · obtain ⟨hstart, hok⟩ := check_ok hok
        cases hok
        exact takeShorthand_wf hone hc hstart
  · split at hok <;> simp at hok

private theorem parseSegments_wf {left : Nat} {segments : List Ast.Segment} (h : Boundary text pos)
    (hok : parseSegments text left pos = .ok segments) :
    segments.length ≤ left ∧ ∀ s ∈ segments, s.selector.WellFormed := by
  induction left generalizing pos segments with
  | zero =>
    rw [parseSegments] at hok
    split at hok
    · simp at hok
    cases hok
    exact ⟨Nat.le_refl 0, fun _ hs => absurd hs not_mem_nil⟩
  | succ left ih =>
    rw [parseSegments] at hok
    split at hok
    · obtain ⟨⟨s, next⟩, hs, hok⟩ := except_bind_ok hok
      obtain ⟨rest, hrest, hok⟩ := except_bind_ok hok
      cases hok
      obtain ⟨hswf, hnext⟩ := parseSegment_wf h hs
      obtain ⟨hlen, hall⟩ := ih hnext hrest
      refine ⟨Nat.succ_le_succ hlen, ?_⟩
      exact forall_mem_cons.mpr ⟨hswf, hall⟩
    · cases hok
      exact ⟨zero_le, fun _ hs => absurd hs not_mem_nil⟩

theorem parseAst_wf {maxBytes : Nat} {ast : PathAst} (hok : parseAst text maxBytes = .ok ast) : ast.WellFormed := by
  rw [parseAst] at hok
  split at hok
  · simp at hok
  obtain ⟨hvalid, hok⟩ := guard_ok hok
  have hzero : Boundary text 0 := by simpa [Boundary] using hvalid
  rw [parse] at hok
  split at hok
  next hdollar =>
    have hone : Boundary text 1 := hzero.succ (by rw [← head?_eq_getElem?]; exact hdollar) (by decide)
    obtain ⟨segments, hsegments, hok⟩ := except_bind_ok hok
    cases hok
    exact parseSegments_wf hone hsegments
  · split at hok
    · cases hok
      exact ⟨zero_le, fun _ hs => absurd hs not_mem_nil⟩
    split at hok
    next hstart =>
      rw [head?_eq_getElem?] at hstart
      obtain ⟨b, hb, hstart⟩ := (Option.any_eq_true _ _).mp hstart
      obtain ⟨hname, hnext⟩ := takeShorthand_wf hzero hb hstart
      obtain ⟨segments, hsegments, hok⟩ := except_bind_ok hok
      cases hok
      obtain ⟨hlen, hall⟩ := parseSegments_wf hnext hsegments
      refine ⟨Nat.succ_le_succ hlen, ?_⟩
      exact forall_mem_cons.mpr ⟨hname, hall⟩
    · obtain ⟨segments, hsegments, hok⟩ := except_bind_ok hok
      cases hok
      exact parseSegments_wf hzero hsegments

end WellFormed

end PathText

end InfinityDB
