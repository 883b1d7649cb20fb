import InfinityDB.Lib.Binary64
import InfinityDB.Lib.Utf8
import InfinityDB.Lib.Varint
import InfinityDB.Ordered.Key

/-!
# Typed index keys

Index keys are compared as raw bytes, so every typed layout preserves the order of its type under
byte comparison: offset-binary integers, sign-flipped doubles, a word for booleans, escaped and
terminated strings. Coercion admits a number into a type only where it is exact. The decoder
accepts what the encoder can produce.
-/

namespace InfinityDB

open Lib

def signBit : UInt64 := 0x8000000000000000

/-- `2 ^ 63` as a double. -/
def twoPow63 : Binary64 := ⟨0x43E0000000000000⟩

inductive IndexKeyType where
  | utf8
  | i64
  | f64
  | bool
deriving DecidableEq

def IndexKeyType.fixed8 : IndexKeyType → Bool
  | .utf8 => false
  | _ => true

/-- A string: bytes that are UTF-8. -/
structure Str where
  bytes : Bytes
  valid : validUtf8 bytes = true
deriving DecidableEq

inductive IndexScalar where
  | null
  | bool (value : Bool)
  | i64 (value : Int64)
  | f64 (value : Binary64)
  | utf8 (value : Str)
deriving DecidableEq

inductive KeySkip where
  | sparse
  | inexact
  | notANumber
  | tooLong
deriving DecidableEq

def inI64Range (f : Binary64) : Bool := (Binary64.ofFields true twoPow63.mag).le f && f.lt twoPow63

/-- Admit an integer into doubles where the conversion is lossless. -/
def coerceI64ToF64 (v : Int64) : Except KeySkip IndexScalar :=
  let f := Binary64.ofInt v.toInt
  if inI64Range f && f.toI64 == v.toInt then .ok (.f64 f) else .error .inexact

/-- Admit a double into integers where it is finite, integral and in range. -/
def coerceF64ToI64 (f : Binary64) : Except KeySkip IndexScalar :=
  if f.isNaN then .error .notANumber
  else if inI64Range f && f.trunc.eq f then .ok (.i64 (Int64.ofInt f.toI64))
  else .error .inexact

/-- Raw bytes, one escape byte for each NUL, and the terminator. -/
def utf8EncodedLen (s : Str) : Nat := s.bytes.length + s.bytes.count 0 + 1

/-- What an index of a declared type does with a value. -/
def indexScalarCoerce (keyType : IndexKeyType) (value : IndexScalar) : Except KeySkip IndexScalar :=
  match keyType, value with
  | .i64, .i64 _ => .ok value
  | .i64, .f64 f => coerceF64ToI64 f
  | .f64, .i64 v => coerceI64ToF64 v
  | .f64, .f64 f => if f.isNaN then .error .notANumber else .ok value
  | .bool, .bool _ => .ok value
  | .utf8, .utf8 s => if orderedKeyMax < utf8EncodedLen s then .error .tooLong else .ok value
  | _, _ => .error .sparse

/-- The zeros are one key. -/
def canonicalF64 (f : Binary64) : Binary64 := if f.eq ⟨0⟩ then ⟨0⟩ else f

/-- Negatives inverted, positives with the sign bit set. -/
def f64KeyWord (f : Binary64) : UInt64 :=
  let bits := (canonicalF64 f).bits
  if bits &&& signBit ≠ 0 then ~~~bits else bits ||| signBit

def escape : Bytes → Bytes
  | [] => []
  | b :: rest => if b = 0 then 0 :: 0xFF :: escape rest else b :: escape rest

/-- A string without NUL is copied; the terminator ends either path. -/
def encodeUtf8 (s : Str) : Bytes := if s.bytes.contains 0 then escape s.bytes ++ [0] else s.bytes ++ [0]

def putWord (word : UInt64) : Bytes := beBytes 8 word.toNat

def indexKeyEncode (keyType : IndexKeyType) (value : IndexScalar) : Except KeySkip Bytes := do
  let admitted ← indexScalarCoerce keyType value
  match admitted with
  | .i64 v => .ok (putWord (v.toUInt64 ^^^ signBit))
  | .f64 f => .ok (putWord (f64KeyWord f))
  | .bool b => .ok (putWord (if b then 1 else 0))
  | .utf8 s => .ok (encodeUtf8 s)
  -- unreachable: no type admits null
  | .null => .error .sparse

/-- Exact comparison of an integer with a double that is a number. -/
def compareI64F64 (a : Int64) (b : Binary64) : Ordering :=
  if twoPow63.le b then .lt
  else if b.lt (Binary64.ofFields true twoPow63.mag) then .gt
  else
    let truncated := b.trunc
    match ordCmp a.toInt truncated.toI64 with
    | .eq => if truncated.lt b then .lt else if b.lt truncated then .gt else .eq
    | unequal => unequal

inductive DecodedIndexKey where
  | utf8 (value : Str)
  | i64 (value : Int64)
  | f64 (value : Binary64)
  | bool (value : Bool)
deriving DecidableEq

inductive IndexKeyDecodeError where
  | length
  | notABool
  | notCanonicalF64
  | escape
  | terminator
  | utf8
deriving DecidableEq

/-- Undo the sign flip; NaN and the negative zero are no keys. -/
def decodeF64Word (word : UInt64) : Except IndexKeyDecodeError DecodedIndexKey :=
  let bits := if word &&& signBit ≠ 0 then word &&& ~~~signBit else ~~~word
  let f : Binary64 := ⟨bits⟩
  if f.isNaN then .error .notCanonicalF64
  else if f.eq ⟨0⟩ && bits &&& signBit ≠ 0 then .error .notCanonicalF64
  else .ok (.f64 f)

/-- Inside the body a NUL is always followed by `0xFF`. -/
def unescape : Bytes → Except IndexKeyDecodeError Bytes
  | [] => .ok []
  | b :: rest =>
    if b = 0 then
      match rest with
      | c :: rest => if c = 0xFF then (unescape rest).map (0 :: ·) else .error .escape
      | [] => .error .escape
    else (unescape rest).map (b :: ·)

def decodeUtf8Key (bytes : Bytes) : Except IndexKeyDecodeError DecodedIndexKey := do
  if orderedKeyMax < bytes.length then .error .length
  else
    match bytes.getLast? with
    | none => .error .length
    | some terminator =>
      if terminator ≠ 0 then .error .terminator
      else
        let raw ← unescape bytes.dropLast
        if h : validUtf8 raw = true then .ok (.utf8 ⟨raw, h⟩) else .error .utf8

def indexKeyDecode (keyType : IndexKeyType) (bytes : Bytes) : Except IndexKeyDecodeError DecodedIndexKey :=
  if keyType.fixed8 then
    if bytes.length ≠ 8 then .error .length
    else
      let word := UInt64.ofNat (paddedValue 8 bytes)
      match keyType with
      | .i64 => .ok (.i64 (word ^^^ signBit).toInt64)
      | .f64 => decodeF64Word word
      | .bool => if word = 0 then .ok (.bool false) else if word = 1 then .ok (.bool true) else .error .notABool
      -- unreachable: strings are not fixed
      | .utf8 => .error .length
  else decodeUtf8Key bytes

private theorem xor_signBit (w : UInt64) :
    (w ^^^ signBit).toNat = if w.toNat < 2 ^ 63 then w.toNat + 2 ^ 63 else w.toNat - 2 ^ 63 := by
  have hlt := w.toNat_lt
  have hbit : signBit.toNat = 2 ^ 63 := rfl
  have hquot : (w.toNat ^^^ 2 ^ 63) / 2 ^ 63 = w.toNat / 2 ^ 63 ^^^ 1 := by
    rw [Nat.xor_div_two_pow]
    rfl
  have hrem : (w.toNat ^^^ 2 ^ 63) % 2 ^ 63 = w.toNat % 2 ^ 63 := by
    rw [Nat.xor_mod_two_pow]
    exact Nat.xor_zero _
  rw [UInt64.toNat_xor, hbit]
  rcases Nat.lt_or_ge w.toNat (2 ^ 63) with h | h
  · rw [Nat.div_eq_of_lt h, Nat.zero_xor] at hquot
    rw [if_pos h]
    omega
  · rw [show w.toNat / 2 ^ 63 = 1 by omega, Nat.xor_self] at hquot
    rw [if_neg (by omega)]
    omega

theorem and_signBit (w : UInt64) : w &&& signBit ≠ 0 ↔ 2 ^ 63 ≤ w.toNat := by
  have hlt := w.toNat_lt
  have hbit : signBit.toNat = 2 ^ 63 := rfl
  rw [Ne, ← UInt64.toNat_inj, UInt64.toNat_and, hbit, UInt64.toNat_zero, Nat.and_two_pow,
    Nat.testBit_eq_decide_div_mod_eq]
  by_cases h : w.toNat / 2 ^ 63 % 2 = 1
  · simp only [h, decide_true, Bool.toNat_true]
    omega
  · simp only [h, decide_false, Bool.toNat_false]
    omega

theorem or_signBit {w : UInt64} (h : w.toNat < 2 ^ 63) : (w ||| signBit).toNat = w.toNat + 2 ^ 63 := by
  have hbit : signBit.toNat = 2 ^ 63 := rfl
  have hsum := Nat.two_pow_add_eq_or_of_lt h 1
  rw [Nat.mul_one] at hsum
  rw [UInt64.toNat_or, hbit, Nat.or_comm, add_comm, hsum]

theorem clear_signBit {w : UInt64} (h : 2 ^ 63 ≤ w.toNat) : (w &&& ~~~signBit).toNat = w.toNat - 2 ^ 63 := by
  have hlt := w.toNat_lt
  have hmask : (~~~signBit).toNat = 2 ^ 63 - 1 := rfl
  rw [UInt64.toNat_and, hmask, Nat.and_two_pow_sub_one_eq_mod]
  omega

theorem offset_toNat (v : Int64) : ((v.toUInt64 ^^^ signBit).toNat : Int) = v.toInt + 2 ^ 63 := by
  have hword := toInt_eq_word v
  have hlt := v.toUInt64.toNat_lt
  rw [xor_signBit]
  split at hword <;> split <;> omega

theorem beBytes_length (n v : Nat) : (beBytes n v).length = n := by
  induction n generalizing v with
  | zero => rfl
  | succ n ih => rw [beBytes, List.length_cons, ih]

private theorem paddedValue_beBytes {n v : Nat} (h : v < 256 ^ n) : paddedValue n (beBytes n v) = v := by
  induction n generalizing v with
  | zero =>
    rw [paddedValue]
    omega
  | succ n ih =>
    have hpos : 0 < 256 ^ n := by positivity
    have hquot : v / 256 ^ n < 256 := by
      rw [Nat.div_lt_iff_lt_mul hpos, ← Nat.pow_succ']
      exact h
    rw [beBytes, paddedValue, ih (Nat.mod_lt _ hpos), UInt8.toNat_ofNat', Nat.mod_eq_of_lt (by omega)]
    exact Nat.div_add_mod' v (256 ^ n)

theorem putWord_length (w : UInt64) : (putWord w).length = 8 := beBytes_length 8 _

theorem paddedValue_putWord (w : UInt64) : paddedValue 8 (putWord w) = w.toNat :=
  paddedValue_beBytes (lt_of_lt_of_le w.toNat_lt (by decide))

/-- Words in big-endian bytes compare as numbers. -/
theorem ordCmp_putWord (v w : UInt64) : ordCmp (putWord v) (putWord w) = ordCmp v.toNat w.toNat := by
  have hdrop (x : UInt64) : (putWord x).drop 8 = [] := by
    apply List.drop_eq_nil_of_le
    rw [putWord_length]
  rw [← paddedCmp_eq 8, paddedCmp, paddedValue_putWord, paddedValue_putWord, hdrop, hdrop, putWord_length,
    putWord_length, ordCmp_of_eq rfl, ordCmp_of_eq rfl]
  cases ordCmp v.toNat w.toNat <;> rfl

theorem putWord_paddedValue {bytes : Bytes} (h : bytes.length = 8) :
    putWord (UInt64.ofNat (paddedValue 8 bytes)) = bytes := by
  have hlt := paddedValue_lt 8 bytes
  have htake := beBytes_paddedValue 8 bytes
  rw [h, List.take_of_length_le (by rw [beBytes_length]), List.take_of_length_le h.le] at htake
  rw [putWord, UInt64.toNat_ofNat', Nat.mod_eq_of_lt (lt_of_lt_of_le hlt (by decide)), htake]

end InfinityDB
