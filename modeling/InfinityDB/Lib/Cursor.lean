import Mathlib

/-!
# Reading a list at a position

Byte decoders keep the whole buffer and a position. What stands at the position is a suffix of the
buffer; these rules pass from the one view to the other.
-/

namespace Lib

open List

abbrev Bytes := List UInt8

variable {α : Type} {l t k : List α} {n start : Nat} {ε β : Type}

theorem getElem?_of_drop {a : α} (h : l.drop n = a :: t) : l[n]? = some a := by
  have := congrArg (·[0]?) h
  simpa using this

theorem drop_succ_of_drop {a : α} (h : l.drop n = a :: t) : l.drop (n + 1) = t := by
  rw [← drop_drop, h]
  rfl

theorem drop_add_of_drop (h : l.drop n = k ++ t) : l.drop (n + k.length) = t := by
  rw [← drop_drop, h, drop_left]

theorem drop_past {len : Nat} (h : l.drop n = k ++ t) (hk : k.length = len) : l.drop (n + len) = t :=
  hk ▸ drop_add_of_drop h

theorem drop_of_getElem? {a : α} (h : l[n]? = some a) : l.drop n = a :: l.drop (n + 1) := by
  obtain ⟨hlt, rfl⟩ := List.getElem?_eq_some_iff.mp h
  exact drop_eq_getElem_cons hlt

/-- What stands at a position ends inside the buffer. -/
theorem add_length_le_of_drop (hk : k ≠ []) (h : l.drop n = k ++ t) : n + k.length ≤ l.length := by
  have hpos := length_pos_of_ne_nil hk
  have := congrArg List.length h
  rw [length_drop, length_append] at this
  omega

def region (l : List α) (start len : Nat) : Option (List α) :=
  if start + len ≤ l.length then some ((l.drop start).take len) else none

theorem region_of_drop {l k t : List α} {n : Nat} (hn : n ≤ l.length) (h : l.drop n = k ++ t) :
    region l n k.length = some k := by
  have := congrArg List.length h
  rw [length_drop, length_append] at this
  rw [region, if_pos (by omega), h, take_left]

theorem drop_of_region {len : Nat} (h : region l n len = some k) :
    l.drop n = k ++ l.drop (n + len) ∧ k.length = len ∧ n + len ≤ l.length := by
  rw [region] at h
  split at h
  next hle =>
    cases h
    refine ⟨?_, ?_, hle⟩
    · rw [← drop_drop, take_append_drop]
    · rw [length_take, length_drop]
      omega
  · simp at h

/-- A decoder that succeeds passed its first step. -/
theorem except_bind_ok {r : Except ε α} {f : α → Except ε β} {b : β} (h : (r >>= f) = .ok b) :
    ∃ a, r = .ok a ∧ f a = .ok b := by
  cases r with
  | error e => simp [bind, Except.bind] at h
  | ok a => exact ⟨a, rfl, h⟩

section
variable {c : Prop} [Decidable c] {e : ε} {x : Except ε α} {a : α}

/-- A decoder that succeeds was not stopped by a guard. -/
theorem guard_ok (h : (if c then .error e else x) = .ok a) : ¬ c ∧ x = .ok a := by
  split at h
  · cases h
  · exact ⟨‹_›, h⟩

theorem check_ok (h : (if c then x else .error e) = .ok a) : c ∧ x = .ok a := by
  split at h
  · exact ⟨‹_›, h⟩
  · cases h

end

theorem ok_pair_inj {a c : α} {b d : β} (h : (.ok (a, b) : Except ε (α × β)) = .ok (c, d)) : a = c ∧ b = d :=
  Prod.mk.inj (Except.ok.inj h)

theorem option_some_bind (a : α) (f : α → Option β) : ((some a : Option α) >>= f) = f a := rfl

theorem except_ok_bind (a : α) (f : α → Except ε β) : ((.ok a : Except ε α) >>= f) = f a := rfl

def leBytes : Nat → Nat → List UInt8
  | 0, _ => []
  | n + 1, v => UInt8.ofNat (v % 256) :: leBytes n (v / 256)

def leValue : List UInt8 → Nat
  | [] => 0
  | b :: rest => b.toNat + 256 * leValue rest

@[simp] theorem leBytes_length (n v : Nat) : (leBytes n v).length = n := by
  induction n generalizing v with
  | zero => rfl
  | succ n ih => rw [leBytes, length_cons, ih]

theorem leValue_leBytes {v : Nat} (h : v < 256 ^ n) : leValue (leBytes n v) = v := by
  induction n generalizing v with
  | zero =>
    rw [leBytes, leValue]
    omega
  | succ n ih =>
    have hquot : v / 256 < 256 ^ n := by
      rw [Nat.div_lt_iff_lt_mul (by decide), ← pow_succ]
      exact h
    rw [leBytes, leValue, ih hquot, UInt8.toNat_ofNat']
    omega

theorem leBytes_leValue (l : List UInt8) : leBytes l.length (leValue l) = l := by
  induction l with
  | nil => rfl
  | cons b rest ih =>
    have hb := b.toNat_lt
    have hlow : (b.toNat + 256 * leValue rest) % 256 = b.toNat := by omega
    have hhigh : (b.toNat + 256 * leValue rest) / 256 = leValue rest := by omega
    rw [length_cons, leValue, leBytes, hlow, hhigh, ih, UInt8.ofNat_toNat]

theorem leValue_lt (l : List UInt8) : leValue l < 256 ^ l.length := by
  induction l with
  | nil => exact Nat.one_pos
  | cons b rest ih =>
    have hb := b.toNat_lt
    rw [leValue, length_cons, pow_succ]
    omega

/-- The number in `n` bytes at a position. -/
def fieldAt (l : List UInt8) (start n : Nat) : Nat := leValue ((l.drop start).take n)

theorem fieldAt_lt (l : List UInt8) (start n : Nat) : fieldAt l start n < 256 ^ n :=
  (leValue_lt _).trans_le (Nat.pow_le_pow_right (by decide) (length_take_le _ _))

theorem fieldAt_of_drop {l t : List UInt8} {v : Nat} (hv : v < 256 ^ n) (h : l.drop start = leBytes n v ++ t) :
    fieldAt l start n = v := by
  have htake : (leBytes n v ++ t).take n = leBytes n v := take_left' (leBytes_length n v)
  rw [fieldAt, h, htake, leValue_leBytes hv]

/-- A field in range is what was written there. -/
theorem drop_fieldAt {l : List UInt8} {start n : Nat} (h : start + n ≤ l.length) :
    l.drop start = leBytes n (fieldAt l start n) ++ l.drop (start + n) := by
  have hlen : ((l.drop start).take n).length = n := by
    rw [length_take, length_drop]
    omega
  have hfield : leBytes n (fieldAt l start n) = (l.drop start).take n := by
    have := leBytes_leValue ((l.drop start).take n)
    rwa [hlen] at this
  rw [hfield, ← drop_drop, take_append_drop]

def u32Bytes (v : UInt32) : List UInt8 := leBytes 4 v.toNat
def u64Bytes (v : UInt64) : List UInt8 := leBytes 8 v.toNat

@[simp] theorem u32Bytes_length (v : UInt32) : (u32Bytes v).length = 4 := leBytes_length _ _
@[simp] theorem u64Bytes_length (v : UInt64) : (u64Bytes v).length = 8 := leBytes_length _ _

def u32At (l : List UInt8) (start : Nat) : UInt32 := UInt32.ofNat (fieldAt l start 4)
def u64At (l : List UInt8) (start : Nat) : UInt64 := UInt64.ofNat (fieldAt l start 8)

theorem u32At_of_drop {l t : List UInt8} {v : UInt32} (h : l.drop start = u32Bytes v ++ t) : u32At l start = v := by
  rw [u32At, fieldAt_of_drop v.toNat_lt h, UInt32.ofNat_toNat]

theorem u64At_of_drop {l t : List UInt8} {v : UInt64} (h : l.drop start = u64Bytes v ++ t) : u64At l start = v := by
  rw [u64At, fieldAt_of_drop v.toNat_lt h, UInt64.ofNat_toNat]

theorem drop_u32At {l : List UInt8} {start : Nat} (h : start + 4 ≤ l.length) :
    l.drop start = u32Bytes (u32At l start) ++ l.drop (start + 4) := by
  have hfield : (u32At l start).toNat = fieldAt l start 4 := UInt32.toNat_ofNat_of_lt' (fieldAt_lt l start 4)
  rw [u32Bytes, hfield]
  exact drop_fieldAt h

theorem drop_u64At {l : List UInt8} {start : Nat} (h : start + 8 ≤ l.length) :
    l.drop start = u64Bytes (u64At l start) ++ l.drop (start + 8) := by
  have hfield : (u64At l start).toNat = fieldAt l start 8 := UInt64.toNat_ofNat_of_lt' (fieldAt_lt l start 8)
  rw [u64Bytes, hfield]
  exact drop_fieldAt h

end Lib
