import Mathlib.Data.List.Basic
import Mathlib.Tactic

/-!
# LEB128 varints

Seven bits a byte, low groups first, the high bit on every byte but the last. A 64-bit number
takes at most ten bytes. The decoder refuses every spelling but the shortest, so a number and its
encoding determine each other.
-/

namespace Lib

/-- The groups of a number, with room for `more` bytes after this one. -/
def varintGroups : Nat → Nat → List UInt8
  | 0, v => [UInt8.ofNat v]
  | more + 1, v =>
    if v < 128 then [UInt8.ofNat v] else UInt8.ofNat (v % 128 + 128) :: varintGroups more (v / 128)

def encodeVarint (v : UInt64) : List UInt8 := varintGroups 9 v.toNat

/-- The decoding loop at byte `i`, with the value of the groups before it. -/
def decodeVarintFrom (i value : Nat) : List UInt8 → Option (Nat × Nat)
  | [] => none
  | byte :: rest =>
    if 10 ≤ i then none
    else
      let value := value + byte.toNat % 128 * 128 ^ i
      if byte < 0x80 then
        -- bits beyond the 64th, or a last group that adds none
        if i = 9 ∧ 1 < byte then none else if 0 < i ∧ byte = 0 then none else some (value, i + 1)
      else decodeVarintFrom (i + 1) value rest

def decodeVarint (bytes : List UInt8) : Option (UInt64 × Nat) :=
  (decodeVarintFrom 0 0 bytes).map fun r => (UInt64.ofNat r.1, r.2)

theorem varintGroups_length (more v : Nat) :
    0 < (varintGroups more v).length ∧ (varintGroups more v).length ≤ more + 1 := by
  induction more generalizing v with
  | zero => exact ⟨Nat.one_pos, Nat.le_refl 1⟩
  | succ more ih =>
    rw [varintGroups]
    split
    · exact ⟨Nat.one_pos, by simp⟩
    · have := ih (v / 128)
      rw [List.length_cons]
      omega

/-- What `more` bytes after byte `i` can still hold. -/
private theorem group_bound {more v : Nat} (h : v < 2 * 128 ^ (more + 1)) : v / 128 < 2 * 128 ^ more := by
  rw [Nat.div_lt_iff_lt_mul (by decide), mul_assoc, ← pow_succ]
  exact h

private theorem decodeVarintFrom_last {i v : Nat} (acc : Nat) (rest : List UInt8) (hi : i ≤ 9) (hlt : v < 128)
    (hnine : i = 9 → v < 2) (hpos : 0 < i → 0 < v) :
    decodeVarintFrom i acc (UInt8.ofNat v :: rest) = some (acc + v * 128 ^ i, i + 1) := by
  have hbyte : (UInt8.ofNat v).toNat = v := by
    rw [UInt8.toNat_ofNat', Nat.mod_eq_of_lt (by omega)]
  have hshort : UInt8.ofNat v < 0x80 := UInt8.lt_iff_toNat_lt.mpr (by rw [hbyte]; exact hlt)
  have hover : ¬ (i = 9 ∧ 1 < UInt8.ofNat v) := by
    intro h
    have := UInt8.lt_iff_toNat_lt.mp h.2
    rw [hbyte] at this
    exact absurd (hnine h.1) (by simpa using this)
  have hmin : ¬ (0 < i ∧ UInt8.ofNat v = 0) := by
    intro h
    have := congrArg UInt8.toNat h.2
    rw [hbyte] at this
    exact absurd (hpos h.1) (by simpa using this)
  rw [decodeVarintFrom, if_neg (by omega), if_pos hshort, if_neg hover, if_neg hmin, hbyte, Nat.mod_eq_of_lt hlt]

theorem decodeVarintFrom_groups {i more v : Nat} (acc : Nat) (rest : List UInt8) (hi : i + more = 9)
    (hv : v < 2 * 128 ^ more) (hpos : 0 < i → 0 < v) : decodeVarintFrom i acc (varintGroups more v ++ rest) =
      some (acc + v * 128 ^ i, i + (varintGroups more v).length) := by
  induction more generalizing i v acc with
  | zero => exact decodeVarintFrom_last acc rest (by omega) (by omega) (fun _ => by omega) hpos
  | succ more ih =>
    rw [varintGroups]
    split
    next hlt => exact decodeVarintFrom_last acc rest (by omega) hlt (fun h => by omega) hpos
    rename_i hge
    have hbyte : (UInt8.ofNat (v % 128 + 128)).toNat = v % 128 + 128 := by
      rw [UInt8.toNat_ofNat', Nat.mod_eq_of_lt (by omega)]
    have hlong : ¬ UInt8.ofNat (v % 128 + 128) < 0x80 := by
      rw [UInt8.lt_iff_toNat_lt, hbyte]
      exact Nat.not_lt.mpr (Nat.le_add_left _ _)
    have hgroup : (v % 128 + 128) % 128 = v % 128 := by omega
    have hsum : v % 128 * 128 ^ i + v / 128 * 128 ^ (i + 1) = v * 128 ^ i := by
      rw [pow_succ, mul_comm (128 ^ i) 128, ← mul_assoc, ← Nat.add_mul, mul_comm (v / 128),
        Nat.mod_add_div]
    rw [List.cons_append, decodeVarintFrom, if_neg (by omega), if_neg hlong, hbyte, hgroup,
      ih _ (by omega) (group_bound hv) (fun _ => by omega), List.length_cons, add_assoc, hsum]
    congr 2
    omega

/-- An accepted number was written by the encoder. -/
theorem groups_of_decodeVarintFrom {i acc value used : Nat} (more : Nat) {bytes : List UInt8} (hi : i + more = 9)
    (h : decodeVarintFrom i acc bytes = some (value, used)) :
    ∃ v rest, bytes = varintGroups more v ++ rest ∧ value = acc + v * 128 ^ i ∧
      used = i + (varintGroups more v).length ∧ v < 2 * 128 ^ more ∧ (0 < i → 0 < v) := by
  induction bytes generalizing i more acc with
  | nil => simp [decodeVarintFrom] at h
  | cons byte rest ih =>
    rw [decodeVarintFrom, if_neg (by omega)] at h
    have hbyte : UInt8.ofNat byte.toNat = byte := UInt8.ofNat_toNat
    by_cases hshort : byte < 0x80
    · have hlt : byte.toNat < 128 := UInt8.lt_iff_toNat_lt.mp hshort
      rw [if_pos hshort] at h
      split at h
      · simp at h
      rename_i hover
      split at h
      · simp at h
      rename_i hmin
      cases h
      have hlast : varintGroups more byte.toNat = [byte] := by
        cases more with
        | zero => rw [varintGroups, hbyte]
        | succ more => rw [varintGroups, if_pos hlt, hbyte]
      refine ⟨byte.toNat, rest, ?_, ?_, ?_, ?_, ?_⟩
      · rw [hlast]
        rfl
      · rw [Nat.mod_eq_of_lt hlt]
      · rw [hlast]
        rfl
      · cases more with
        | zero =>
          have hone : ¬ 1 < byte.toNat := fun h => hover ⟨by omega, UInt8.lt_iff_toNat_lt.mpr h⟩
          omega
        | succ more =>
          have : 0 < 128 ^ more := Nat.pow_pos (by decide)
          rw [pow_succ]
          omega
      · intro hpos
        apply Nat.pos_of_ne_zero
        intro hz
        apply hmin
        exact ⟨hpos, by rw [← hbyte, hz]; rfl⟩
    · have hge : 128 ≤ byte.toNat := Nat.not_lt.mp fun h => hshort (UInt8.lt_iff_toNat_lt.mpr h)
      have hlt := byte.toNat_lt
      rw [if_neg hshort] at h
      cases more with
      | zero =>
        -- a tenth byte that continues
        cases rest with
        | nil => simp [decodeVarintFrom] at h
        | cons next rest =>
          rw [decodeVarintFrom, if_pos (by omega)] at h
          simp at h
      | succ more =>
        obtain ⟨v, tail, hrest, hvalue, hused, hbound, hpos⟩ := ih more (by omega) h
        have hv := hpos (by omega)
        have hgroups : varintGroups (more + 1) (byte.toNat % 128 + 128 * v) = byte :: varintGroups more v := by
          rw [varintGroups, if_neg (by omega)]
          have hlow : (byte.toNat % 128 + 128 * v) % 128 + 128 = byte.toNat := by omega
          have hhigh : (byte.toNat % 128 + 128 * v) / 128 = v := by omega
          rw [hlow, hhigh, hbyte]
        refine ⟨byte.toNat % 128 + 128 * v, tail, ?_, ?_, ?_, ?_, ?_⟩
        · rw [hgroups, hrest]
          rfl
        · rw [hvalue, Nat.add_mul, pow_succ, add_assoc]
          ring
        · rw [hgroups, List.length_cons, hused]
          omega
        · rw [pow_succ]
          omega
        · omega

theorem decodeVarint_encodeVarint (v : UInt64) (rest : List UInt8) :
    decodeVarint (encodeVarint v ++ rest) = some (v, (encodeVarint v).length) := by
  have hv := v.toNat_lt
  rw [decodeVarint, encodeVarint, decodeVarintFrom_groups 0 rest (by omega) (by omega) (by omega)]
  simp

theorem encodeVarint_of_decodeVarint {bytes : List UInt8} {v : UInt64} {used : Nat}
    (h : decodeVarint bytes = some (v, used)) :
    ∃ rest, bytes = encodeVarint v ++ rest ∧ used = (encodeVarint v).length := by
  rw [decodeVarint, Option.map_eq_some_iff] at h
  obtain ⟨⟨value, count⟩, hfrom, heq⟩ := h
  obtain ⟨rfl, rfl⟩ := Prod.mk.inj heq
  obtain ⟨w, rest, hbytes, hvalue, hused, hbound, -⟩ := groups_of_decodeVarintFrom 9 (zero_add 9) hfrom
  have hw : (UInt64.ofNat value).toNat = w := by
    rw [UInt64.toNat_ofNat', hvalue]
    omega
  refine ⟨rest, ?_, ?_⟩
  · rw [encodeVarint, hw, hbytes]
  · rw [encodeVarint, hw, hused]
    omega

theorem encodeVarint_length (v : UInt64) : 0 < (encodeVarint v).length ∧ (encodeVarint v).length ≤ 10 :=
  varintGroups_length 9 v.toNat

/-- Small magnitudes of either sign to small numbers. -/
def zigzag (v : Int64) : UInt64 := (v.toUInt64 <<< 1) ^^^ (v >>> 63).toUInt64
def unzigzag (u : UInt64) : Int64 := (u >>> 1).toInt64 ^^^ -(u &&& 1).toInt64

theorem toInt_eq_word (v : Int64) :
    v.toInt = if v.toUInt64.toNat < 2 ^ 63 then (v.toUInt64.toNat : Int) else v.toUInt64.toNat - 2 ^ 64 := by
  have hint : v.toInt = if 2 * v.toUInt64.toNat < 2 ^ 64 then (v.toUInt64.toNat : Int)
      else v.toUInt64.toNat - (2 ^ 64 : Nat) := by
    rw [← Int64.toInt_toBitVec, BitVec.toInt_eq_toNat_cond]
    rfl
  split at hint <;> split <;> omega

theorem shiftRight_63 (v : Int64) : (v >>> 63).toUInt64 = if v.toUInt64.toNat < 2 ^ 63 then 0 else ~~~ 0 := by
  have hs : ((63 : Int64).toBitVec.smod 64) = 63#64 := rfl
  have hint := toInt_eq_word v
  have hlt := v.toUInt64.toNat_lt
  have hquot {w : Int64} (hw : v.toInt / 2 ^ 63 = w.toInt) : v >>> 63 = w := by
    rw [← Int64.toInt_inj, ← hw, ← Int64.toInt_toBitVec, Int64.toBitVec_shiftRight, hs, BitVec.sshiftRight_eq',
      BitVec.toInt_sshiftRight, Int64.toInt_toBitVec, Int.shiftRight_eq_div_pow]
    rfl
  split
  · rw [hquot (w := 0) (by change _ = 0; split at hint <;> omega)]
    rfl
  · rw [hquot (w := -1) (by change _ = -1; split at hint <;> omega)]
    rfl

theorem zigzag_toNat (v : Int64) : (zigzag v).toNat =
      if v.toUInt64.toNat < 2 ^ 63 then 2 * v.toUInt64.toNat else 2 ^ 65 - 1 - 2 * v.toUInt64.toNat := by
  have hlt := v.toUInt64.toNat_lt
  have hshift : (v.toUInt64 <<< 1).toNat = 2 * v.toUInt64.toNat % 2 ^ 64 := by
    rw [UInt64.toNat_shiftLeft, Nat.shiftLeft_eq, mul_comm]
    rfl
  rw [zigzag, shiftRight_63]
  split
  · rw [UInt64.xor_zero, hshift]
    omega
  · rw [UInt64.xor_not, UInt64.xor_zero, UInt64.toNat_not, hshift]
    simp only [UInt64.size]
    omega

theorem unzigzag_toNat (u : UInt64) :
    (unzigzag u).toUInt64.toNat = if u.toNat % 2 = 0 then u.toNat / 2 else 2 ^ 64 - 1 - u.toNat / 2 := by
  have hhalf : (u >>> 1).toNat = u.toNat / 2 := by
    rw [UInt64.toNat_shiftRight, Nat.shiftRight_eq_div_pow]
    rfl
  have hlow : (u &&& 1).toNat = u.toNat % 2 := by
    rw [UInt64.toNat_and]
    exact Nat.and_one_is_mod _
  have hsplit : (unzigzag u).toUInt64 = (u >>> 1) ^^^ (-(u &&& 1).toInt64).toUInt64 := rfl
  rw [hsplit]
  split
  · have hz : u &&& 1 = 0 := by
      apply UInt64.toNat.inj
      rw [hlow]
      assumption
    rw [hz]
    change (u >>> 1 ^^^ 0).toNat = _
    rw [UInt64.xor_zero, hhalf]
  · have hz : u &&& 1 = 1 := by
      apply UInt64.toNat.inj
      rw [hlow]
      change _ = 1
      omega
    rw [hz]
    change (u >>> 1 ^^^ ~~~ 0).toNat = _
    rw [UInt64.xor_not, UInt64.xor_zero, UInt64.toNat_not, hhalf]
    rfl

theorem unzigzag_zigzag (v : Int64) : unzigzag (zigzag v) = v := by
  have hlt := v.toUInt64.toNat_lt
  have hz := zigzag_toNat v
  have hu := unzigzag_toNat (zigzag v)
  have hword : (unzigzag (zigzag v)).toUInt64 = v.toUInt64 := by
    apply UInt64.toNat.inj
    split at hz <;> split at hu <;> omega
  rw [← Int64.toInt64_toUInt64 (unzigzag (zigzag v)), hword, Int64.toInt64_toUInt64]

theorem zigzag_unzigzag (u : UInt64) : zigzag (unzigzag u) = u := by
  have hlt := u.toNat_lt
  have hu := unzigzag_toNat u
  have hz := zigzag_toNat (unzigzag u)
  apply UInt64.toNat.inj
  split at hz <;> split at hu <;> omega

end Lib
