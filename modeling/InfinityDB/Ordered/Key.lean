import InfinityDB.Lib.Cursor

/-!
# Ordered-map keys

The two key schemes of the ordered projection and the probe every operation parses once.
A `VarKey` entry is compared as zero-padded prefix, then suffix, then length; the main
result here is that this order is the `memcmp` order of the key bytes.
-/

namespace InfinityDB

open Lib List

instance instLinearOrderByte : LinearOrder UInt8 where
  le_refl := UInt8.le_refl
  le_trans _ _ _ := UInt8.le_trans
  le_antisymm _ _ := UInt8.le_antisymm
  lt_iff_le_not_ge _ _ := by
    rw [UInt8.lt_iff_toNat_lt, UInt8.le_iff_toNat_le, UInt8.le_iff_toNat_le]
    omega
  le_total := UInt8.le_total
  toDecidableLE := inferInstance
  toDecidableLT := inferInstance
  toDecidableEq := inferInstance

instance instLinearOrderWord : LinearOrder UInt64 where
  le_refl := UInt64.le_refl
  le_trans _ _ _ := UInt64.le_trans
  le_antisymm _ _ := UInt64.le_antisymm
  lt_iff_le_not_ge _ _ := by
    rw [UInt64.lt_iff_toNat_lt, UInt64.le_iff_toNat_le, UInt64.le_iff_toNat_le]
    omega
  le_total := UInt64.le_total
  toDecidableLE := inferInstance
  toDecidableLT := inferInstance
  toDecidableEq := inferInstance

/-- Rust's `Ord::cmp`. -/
def ordCmp {α : Type} [LinearOrder α] (a b : α) : Ordering := cmp a b

section OrdCmp
variable {α : Type} [LinearOrder α] {a b : α}

@[simp] theorem ordCmp_eq_lt : ordCmp a b = .lt ↔ a < b := cmp_eq_lt_iff a b
@[simp] theorem ordCmp_eq_eq : ordCmp a b = .eq ↔ a = b := cmp_eq_eq_iff a b
@[simp] theorem ordCmp_eq_gt : ordCmp a b = .gt ↔ b < a := cmp_eq_gt_iff a b

theorem ordCmp_of_lt (h : a < b) : ordCmp a b = .lt := ordCmp_eq_lt.mpr h
theorem ordCmp_of_eq (h : a = b) : ordCmp a b = .eq := ordCmp_eq_eq.mpr h
theorem ordCmp_of_gt (h : b < a) : ordCmp a b = .gt := ordCmp_eq_gt.mpr h

theorem ordCmp_add_left (n a b : Nat) : ordCmp (n + a) (n + b) = ordCmp a b := by
  rcases lt_trichotomy a b with h | h | h
  · rw [ordCmp_of_lt h, ordCmp_of_lt (Nat.add_lt_add_left h n)]
  · rw [ordCmp_of_eq h, ordCmp_of_eq (congrArg (n + ·) h)]
  · rw [ordCmp_of_gt h, ordCmp_of_gt (Nat.add_lt_add_left h n)]

private theorem ordCmp_succ (a b : Nat) : ordCmp (a + 1) (b + 1) = ordCmp a b := by
  rw [add_comm a, add_comm b, ordCmp_add_left]

end OrdCmp

/-- One index entry: the typed key bytes and the primary-key reference (`PkRef`). -/
@[ext]
structure Pair where
  key : Bytes
  entryRef : UInt64
deriving DecidableEq, Repr

/-- Key bytes in `memcmp` order, the reference as the final tie-break. -/
def Pair.toLexPair (p : Pair) : Bytes ×ₗ UInt64 := toLex (p.key, p.entryRef)

theorem Pair.toLexPair_injective : Function.Injective Pair.toLexPair := by
  intro p q h
  have hp : (p.key, p.entryRef) = (q.key, q.entryRef) := toLex.injective h
  exact Pair.ext (congrArg Prod.fst hp) (congrArg Prod.snd hp)

instance : LinearOrder Pair := LinearOrder.lift' Pair.toLexPair Pair.toLexPair_injective

theorem Pair.lt_iff (p q : Pair) : p < q ↔ p.key < q.key ∨ p.key = q.key ∧ p.entryRef < q.entryRef := by
  change Pair.toLexPair p < Pair.toLexPair q ↔ _
  exact Prod.Lex.toLex_lt_toLex

theorem Pair.key_le_of_le {p q : Pair} (h : p ≤ q) : p.key ≤ q.key := by
  rcases lt_or_eq_of_le h with h | h
  · rcases (Pair.lt_iff p q).mp h with h | h
    · exact h.le
    · exact h.1.le
  · rw [h]

theorem ordCmp_pair (p q : Pair) : ordCmp p q = (ordCmp p.key q.key).then (ordCmp p.entryRef q.entryRef) := by
  rcases lt_trichotomy p.key q.key with h | h | h
  · rw [ordCmp_of_lt h, ordCmp_of_lt ((Pair.lt_iff p q).mpr (.inl h))]
    rfl
  · rw [ordCmp_of_eq h]
    change _ = ordCmp p.entryRef q.entryRef
    rcases lt_trichotomy p.entryRef q.entryRef with hr | hr | hr
    · rw [ordCmp_of_lt hr, ordCmp_of_lt ((Pair.lt_iff p q).mpr (.inr ⟨h,hr⟩))]
    · rw [ordCmp_of_eq hr, ordCmp_of_eq (Pair.ext h hr)]
    · rw [ordCmp_of_gt hr, ordCmp_of_gt ((Pair.lt_iff q p).mpr (.inr ⟨h.symm,hr⟩))]
  · rw [ordCmp_of_gt h, ordCmp_of_gt ((Pair.lt_iff q p).mpr (.inl h))]
    rfl

/-- `ORDERED_KEY_MAX`: the structural cap on a tree key. -/
def orderedKeyMax : Nat := 1024

inductive KeyScheme where
  | fixed8
  | varKey
deriving DecidableEq, Repr

/-- `VarKey` sideband: heap address of the suffix and full key length. -/
structure VarMeta where
  addr : Nat
  len : Nat
deriving DecidableEq, Repr

namespace KeyScheme

def Meta : KeyScheme → Type
  | fixed8 => Unit
  | varKey => VarMeta

/-- `FIXED`: the prefix is the whole key. -/
def fixed : KeyScheme → Bool
  | fixed8 => true
  | varKey => false

def metaNew : (S : KeyScheme) → Nat → Nat → S.Meta
  | fixed8, _, _ => ()
  | varKey, addr, len => VarMeta.mk addr len

def metaAddr : (S : KeyScheme) → S.Meta → Nat
  | fixed8, _ => 0
  | varKey, side => VarMeta.addr side

def metaLen : (S : KeyScheme) → S.Meta → Nat
  | fixed8, _ => 8
  | varKey, side => VarMeta.len side

/-- What `make_probe` asserts of a key. -/
def Admits : KeyScheme → Bytes → Prop
  | fixed8, key => key.length = 8
  | varKey, key => key.length ≤ orderedKeyMax

instance : (S : KeyScheme) → (key : Bytes) → Decidable (S.Admits key)
  | fixed8, key => inferInstanceAs (Decidable (key.length = 8))
  | varKey, key => inferInstanceAs (Decidable (key.length ≤ orderedKeyMax))

end KeyScheme

/-- Value of the first `n` bytes, big-endian, missing bytes read as zero. -/
def paddedValue : Nat → Bytes → Nat
  | 0, _ => 0
  | _ + 1, [] => 0
  | n + 1, b :: bs => b.toNat * 256 ^ n + paddedValue n bs

/-- `key_prefix`: the zero-padded big-endian `u64` prefix of a key. -/
def keyPrefix (key : Bytes) : Nat := paddedValue 8 key

/-- The low `n` bytes of a word, big-endian (`to_be_bytes` at `n = 8`). -/
def beBytes : Nat → Nat → Bytes
  | 0, _ => []
  | n + 1, v => UInt8.ofNat (v / 256 ^ n) :: beBytes n (v % 256 ^ n)

structure Probe where
  pre : Nat
  suffix : Bytes
  len : Nat

def Probe.ofKey (key : Bytes) : Probe := ⟨keyPrefix key, key.drop 8, key.length⟩

/-- `make_probe`; `none` is the failed length assertion. -/
def makeProbe (S : KeyScheme) (key : Bytes) : Option Probe :=
  if S.Admits key then some (.ofKey key) else none

theorem paddedValue_lt (n : Nat) (key : Bytes) : paddedValue n key < 256 ^ n := by
  induction n generalizing key with
  | zero => simp [paddedValue]
  | succ n ih =>
    cases key with
    | nil => simp only [paddedValue]; positivity
    | cons b bs =>
      have hb : b.toNat + 1 ≤ 256 := b.toNat_lt
      have hbs := ih bs
      have hmul : (b.toNat + 1) * 256 ^ n ≤ 256 * 256 ^ n := Nat.mul_le_mul_right _ hb
      rw [paddedValue, pow_succ]
      linarith [add_mul b.toNat 1 (256 ^ n)]

private theorem paddedValue_head_lt {n : Nat} {b c : UInt8} (bs cs : Bytes) (h : b < c) :
    paddedValue (n+1) (b :: bs) < paddedValue (n+1) (c :: cs) := by
  have hbc : b.toNat + 1 ≤ c.toNat := UInt8.lt_iff_toNat_lt.mp h
  have hmul : (b.toNat + 1) * 256 ^ n ≤ c.toNat * 256 ^ n := Nat.mul_le_mul_right _ hbc
  have hbs := paddedValue_lt n bs
  simp only [paddedValue]
  linarith [add_mul b.toNat 1 (256 ^ n)]

/-- The order `cmp_key` computes, at any prefix width. -/
def paddedCmp (n : Nat) (k l : Bytes) : Ordering :=
  (ordCmp (paddedValue n k) (paddedValue n l)).then
    ((ordCmp (k.drop n) (l.drop n)).then (ordCmp k.length l.length))

private theorem paddedCmp_swap (n : Nat) (k l : Bytes) : (paddedCmp n k l).swap = paddedCmp n l k := by
  simp only [paddedCmp, Ordering.swap_then, ordCmp, cmp_swap]

private theorem paddedCmp_nil_cons (n : Nat) (b : UInt8) (bs : Bytes) : paddedCmp n [] (b :: bs) = .lt := by
  have hlen : ordCmp ([] : Bytes).length (b :: bs).length = .lt := ordCmp_of_lt (by simp)
  have hpre : paddedValue n [] ≤ paddedValue n (b :: bs) := by cases n <;> simp [paddedValue]
  rcases lt_or_eq_of_le hpre with h | h
  · rw [paddedCmp, ordCmp_of_lt h]
    rfl
  · rw [paddedCmp, ordCmp_of_eq h, hlen]
    cases hd : (b :: bs).drop n with
    | nil => rw [drop_nil, ordCmp_of_eq rfl]; rfl
    | cons c cs => rw [drop_nil, ordCmp_of_lt (nil_lt_cons c cs)]; rfl

/-- Zero-padded prefix, suffix, length: the byte order of the keys, whatever the width. -/
theorem paddedCmp_eq (n : Nat) (k l : Bytes) : paddedCmp n k l = ordCmp k l := by
  induction n generalizing k l with
  | zero =>
    rw [paddedCmp, drop_zero, drop_zero, ordCmp_of_eq (by simp [paddedValue])]
    rcases lt_trichotomy k l with h | h | h
    · rw [ordCmp_of_lt h]; rfl
    · rw [ordCmp_of_eq h, ordCmp_of_eq (congrArg List.length h)]; rfl
    · rw [ordCmp_of_gt h]; rfl
  | succ n ih =>
    cases k with
    | nil =>
      cases l with
      | nil => rw [paddedCmp, ordCmp_of_eq rfl, ordCmp_of_eq rfl, ordCmp_of_eq rfl, ordCmp_of_eq rfl]; rfl
      | cons c cs => rw [paddedCmp_nil_cons, ordCmp_of_lt (nil_lt_cons c cs)]
    | cons b bs =>
      cases l with
      | nil => rw [← paddedCmp_swap, paddedCmp_nil_cons, ordCmp_of_gt (nil_lt_cons b bs)]; rfl
      | cons c cs =>
        rcases lt_trichotomy b c with h | h | h
        · rw [paddedCmp, ordCmp_of_lt (paddedValue_head_lt bs cs h), ordCmp_of_lt (cons_lt_cons_iff.mpr (.inl h))]
          rfl
        · subst h
          have hhead : paddedCmp (n+1) (b :: bs) (b :: cs) = paddedCmp n bs cs := by
            simp only [paddedCmp, paddedValue, drop_succ_cons, length_cons, ordCmp_add_left, ordCmp_succ]
          rw [hhead, ih]
          rcases lt_trichotomy bs cs with h | h | h
          · rw [ordCmp_of_lt h, ordCmp_of_lt (cons_lt_cons_iff.mpr (.inr ⟨rfl,h⟩))]
          · rw [ordCmp_of_eq h, ordCmp_of_eq (by rw [h])]
          · rw [ordCmp_of_gt h, ordCmp_of_gt (cons_lt_cons_iff.mpr (.inr ⟨rfl,h⟩))]
        · rw [paddedCmp, ordCmp_of_gt (paddedValue_head_lt cs bs h), ordCmp_of_gt (cons_lt_cons_iff.mpr (.inl h))]
          rfl

theorem beBytes_paddedValue (n : Nat) (key : Bytes) : (beBytes n (paddedValue n key)).take key.length = key.take n := by
  induction n generalizing key with
  | zero => simp [beBytes]
  | succ n ih =>
    cases key with
    | nil => simp
    | cons b bs =>
      have hlt := paddedValue_lt n bs
      have hdiv : paddedValue (n+1) (b :: bs) / 256 ^ n = b.toNat := by
        rw [paddedValue, mul_comm, Nat.mul_add_div (by positivity), Nat.div_eq_of_lt hlt, add_zero]
      have hmod : paddedValue (n+1) (b :: bs) % 256 ^ n = paddedValue n bs := by
        rw [paddedValue, mul_comm, Nat.mul_add_mod, Nat.mod_eq_of_lt hlt]
      rw [beBytes, hdiv, hmod, length_cons, take_succ_cons, take_succ_cons, ih bs]
      simp

theorem keyPrefix_mono {k l : Bytes} (h : k ≤ l) : keyPrefix k ≤ keyPrefix l := by
  by_contra hlt
  have hcmp := paddedCmp_eq 8 k l
  rw [paddedCmp, ordCmp_of_gt (show paddedValue 8 l < paddedValue 8 k from not_le.mp hlt)] at hcmp
  exact absurd (ordCmp_eq_gt.mp hcmp.symm) (not_lt.mpr h)

end InfinityDB
