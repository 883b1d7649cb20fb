import Mathlib

/-!
# Binary64 bit patterns

A double is its sign and its magnitude field: exponent and fraction read as one number. Every
finite double is an integer multiple of `2 ^ -1074`, so exact values are compared as integers;
the magnitude field of an infinity scales to a number above every finite one. Conversions from and
to integers and truncation work on the fields and are exact where they claim to be.
-/

namespace Lib

structure Binary64 where
  bits : UInt64
deriving DecidableEq

namespace Binary64

def infMag : Nat := 2047 * 2 ^ 52

def neg (x : Binary64) : Bool := 2 ^ 63 ≤ x.bits.toNat

def mag (x : Binary64) : Nat := x.bits.toNat % 2 ^ 63

def ofFields (negative : Bool) (magnitude : Nat) : Binary64 :=
  ⟨UInt64.ofNat (magnitude + if negative then 2 ^ 63 else 0)⟩

def isNaN (x : Binary64) : Bool := infMag < x.mag

def isFinite (x : Binary64) : Bool := x.mag < infMag

/-- The value of a magnitude field in units of `2 ^ -1074`. -/
def scaleMag (magnitude : Nat) : Nat :=
  if magnitude < 2 ^ 52 then magnitude
  else (magnitude % 2 ^ 52 + 2 ^ 52) * 2 ^ (magnitude / 2 ^ 52 - 1)

def scaled (x : Binary64) : Int := if x.neg then -(scaleMag x.mag : Int) else scaleMag x.mag

/-- The exact value of a double that is a number. -/
def value (x : Binary64) : WithBot (WithTop ℚ) :=
  if x.isFinite then ((((x.scaled : ℚ) / 2 ^ 1074 : ℚ) : WithTop ℚ) : WithBot (WithTop ℚ))
  else if x.neg then ⊥ else ((⊤ : WithTop ℚ) : WithBot (WithTop ℚ))

/-- `==`: false on NaN, and the zeros are equal. -/
def eq (x y : Binary64) : Bool := !x.isNaN && !y.isNaN && x.scaled == y.scaled

/-- `<`: false on NaN. -/
def lt (x y : Binary64) : Bool := !x.isNaN && !y.isNaN && x.scaled < y.scaled

/-- `<=`: false on NaN. -/
def le (x y : Binary64) : Bool := !x.isNaN && !y.isNaN && x.scaled ≤ y.scaled

theorem mag_lt (x : Binary64) : x.mag < 2 ^ 63 := Nat.mod_lt _ (by decide)

theorem bits_eq (x : Binary64) : x.bits.toNat = x.mag + if x.neg then 2 ^ 63 else 0 := by
  have hlt := x.bits.toNat_lt
  rw [mag, neg]
  by_cases h : 2 ^ 63 ≤ x.bits.toNat
  · rw [if_pos (by simpa using h)]
    omega
  · rw [if_neg (by simpa using h)]
    omega

variable {x y : Binary64}

theorem ext_fields (hneg : x.neg = y.neg) (hmag : x.mag = y.mag) : x = y := by
  have hbits : x.bits.toNat = y.bits.toNat := by rw [bits_eq, bits_eq, hneg, hmag]
  cases x
  cases y
  congr
  exact UInt64.toNat_inj.mp hbits

section OfFields
variable {negative : Bool} {magnitude : Nat}

theorem ofFields_toNat (h : magnitude < 2 ^ 63) :
    (ofFields negative magnitude).bits.toNat = magnitude + if negative then 2 ^ 63 else 0 := by
  rw [ofFields, UInt64.toNat_ofNat']
  apply Nat.mod_eq_of_lt
  split <;> omega

theorem ofFields_neg (h : magnitude < 2 ^ 63) : (ofFields negative magnitude).neg = negative := by
  rw [neg, ofFields_toNat h]
  cases negative
  · simpa using h
  · simp

theorem ofFields_mag (h : magnitude < 2 ^ 63) : (ofFields negative magnitude).mag = magnitude := by
  rw [mag, ofFields_toNat h]
  split <;> omega

theorem ofFields_scaled (h : magnitude < 2 ^ 63) :
    (ofFields negative magnitude).scaled = if negative then -(scaleMag magnitude : Int) else scaleMag magnitude := by
  rw [scaled, ofFields_neg h, ofFields_mag h]

end OfFields

theorem scaleMag_mul_add {e m : Nat} (hm : m < 2 ^ 52) : scaleMag ((e + 1) * 2 ^ 52 + m) = (m + 2 ^ 52) * 2 ^ e := by
  have hquot : ((e + 1) * 2 ^ 52 + m) / 2 ^ 52 = e + 1 := by omega
  have hrem : ((e + 1) * 2 ^ 52 + m) % 2 ^ 52 = m := by omega
  rw [scaleMag, if_neg (by omega), hquot, hrem, Nat.add_sub_cancel]

theorem scaleMag_strictMono : StrictMono scaleMag := by
  apply strictMono_nat_of_lt_succ
  intro n
  rcases Nat.lt_or_ge (n + 1) (2 ^ 52) with hsmall | hlarge
  · rw [scaleMag, scaleMag, if_pos (by omega), if_pos hsmall]
    omega
  -- split the successor into exponent and fraction
  obtain ⟨e, m, hm, hn⟩ : ∃ e m, m < 2 ^ 52 ∧ n + 1 = (e + 1) * 2 ^ 52 + m :=
    ⟨(n + 1) / 2 ^ 52 - 1, (n + 1) % 2 ^ 52, Nat.mod_lt _ (by decide), by omega⟩
  rw [hn, scaleMag_mul_add hm]
  cases m with
  | succ m =>
    rw [show n = (e + 1) * 2 ^ 52 + m by omega, scaleMag_mul_add (by omega)]
    exact Nat.mul_lt_mul_of_pos_right (by omega) (by positivity)
  | zero =>
    cases e with
    | zero =>
      rw [scaleMag, if_pos (by omega)]
      omega
    | succ e =>
      rw [show n = (e + 1) * 2 ^ 52 + (2 ^ 52 - 1) by omega, scaleMag_mul_add (by omega)]
      have hdouble : (0 + 2 ^ 52) * 2 ^ (e + 1) = 2 ^ 53 * 2 ^ e := by ring
      rw [hdouble]
      exact Nat.mul_lt_mul_of_pos_right (by omega) (by positivity)

theorem scaleMag_zero : scaleMag 0 = 0 := rfl

theorem scaleMag_eq_zero {magnitude : Nat} : scaleMag magnitude = 0 ↔ magnitude = 0 := by
  rw [← scaleMag_zero]
  exact scaleMag_strictMono.injective.eq_iff

theorem scaled_eq_zero : x.scaled = 0 ↔ x.mag = 0 := by
  rw [← scaleMag_eq_zero, scaled]
  split <;> omega

/-- The magnitude with its sign, as an integer: the order of the exact values. -/
def signedMag (x : Binary64) : Int := if x.neg then -(x.mag : Int) else x.mag

theorem scaled_lt_iff : x.scaled < y.scaled ↔ x.signedMag < y.signedMag := by
  have hmono {a b : Nat} : scaleMag a < scaleMag b ↔ a < b := scaleMag_strictMono.lt_iff_lt
  have hzero {a : Nat} : scaleMag a = 0 ↔ a = 0 := scaleMag_eq_zero
  have hxy := @hmono x.mag y.mag
  have hyx := @hmono y.mag x.mag
  have hx := @hzero x.mag
  have hy := @hzero y.mag
  rw [scaled, scaled, signedMag, signedMag]
  split <;> split <;> omega

theorem scaled_lt_inf_iff : scaleMag x.mag < scaleMag infMag ↔ x.isFinite = true := by
  rw [scaleMag_strictMono.lt_iff_lt, isFinite, decide_eq_true_eq]

/-- The order of the exact values is the order of the scaled ones. -/
theorem value_lt_iff (hx : x.isNaN = false) (hy : y.isNaN = false) : x.value < y.value ↔ x.scaled < y.scaled := by
  have hfield {z : Binary64} (hz : z.isNaN = false) (hinf : ¬ z.isFinite = true) : z.mag = infMag := by
    simp only [isNaN, isFinite, decide_eq_true_eq, decide_eq_false_iff_not] at hz hinf
    omega
  have hbelow {z : Binary64} (hz : z.isFinite = true) :
      -(scaleMag infMag : Int) < z.scaled ∧ z.scaled < scaleMag infMag := by
    have := scaled_lt_inf_iff.mpr hz
    rw [scaled]
    split <;> omega
  have hpos : 0 < scaleMag infMag := by
    rw [← scaleMag_zero]
    exact scaleMag_strictMono (by decide)
  have hends {z : Binary64} (hz : z.isNaN = false) (hinf : ¬ z.isFinite = true) :
      z.scaled = if z.neg then -(scaleMag infMag : Int) else scaleMag infMag := by
    rw [scaled, hfield hz hinf]
  by_cases hxf : x.isFinite = true
  · by_cases hyf : y.isFinite = true
    · rw [value, value, if_pos hxf, if_pos hyf, WithBot.coe_lt_coe, WithTop.coe_lt_coe,
        div_lt_div_iff_of_pos_right (by positivity), Int.cast_lt]
    · have hb := hbelow hxf
      rw [value, value, if_pos hxf, if_neg hyf, hends hy hyf]
      cases y.neg
      · simp only [Bool.false_eq_true, if_false, WithBot.coe_lt_coe]
        exact iff_of_true (WithTop.coe_lt_top _) hb.2
      · simp only [if_true]
        exact iff_of_false not_lt_bot (by omega)
  · by_cases hyf : y.isFinite = true
    · have hb := hbelow hyf
      rw [value, value, if_neg hxf, if_pos hyf, hends hx hxf]
      cases x.neg
      · simp only [Bool.false_eq_true, if_false, WithBot.coe_lt_coe]
        exact iff_of_false not_top_lt (by omega)
      · simp only [if_true]
        exact iff_of_true (WithBot.bot_lt_coe _) hb.1
    · rw [value, value, if_neg hxf, if_neg hyf, hends hx hxf, hends hy hyf]
      generalize scaleMag infMag = top at hpos
      cases x.neg <;> cases y.neg <;> simp <;> omega

/-- A number divided by `2 ^ s`, to the nearest, ties to even. -/
def roundShift (a s : Nat) : Nat :=
  if 2 ^ s < 2 * (a % 2 ^ s) ∨ 2 * (a % 2 ^ s) = 2 ^ s ∧ a / 2 ^ s % 2 = 1 then a / 2 ^ s + 1 else a / 2 ^ s

/-- The magnitude field of an integer, rounded to the nearest double. -/
def magOfNat (a : Nat) : Nat :=
  if a = 0 then 0
  else (a.log2 + 1022) * 2 ^ 52 + if a.log2 ≤ 52 then a * 2 ^ (52 - a.log2) else roundShift a (a.log2 - 52)

/-- Integer to double, `v as f64`. -/
def ofInt (v : Int) : Binary64 := ofFields (v < 0) (magOfNat v.natAbs)

/-- Toward zero: the fraction bits below the unit are cleared. -/
def trunc (x : Binary64) : Binary64 :=
  let e := x.mag / 2 ^ 52
  ofFields x.neg (if e < 1023 then 0 else if e < 1075 then x.mag - x.mag % 2 ^ (1075 - e) else x.mag)

/-- Double to `i64`, `f as i64`: truncated and saturated, NaN to zero. -/
def toI64 (x : Binary64) : Int :=
  if x.isNaN then 0 else max (-2 ^ 63) (min (x.scaled.tdiv (2 ^ 1074)) (2 ^ 63 - 1))

theorem roundShift_bounds {a s : Nat} (ha : a.log2 = 52 + s) : 2 ^ 52 ≤ roundShift a s ∧ roundShift a s ≤ 2 ^ 53 := by
  have hne : a ≠ 0 := by
    intro h
    rw [h, Nat.log2_zero] at ha
    omega
  have hlow : 2 ^ 52 ≤ a / 2 ^ s := by
    rw [Nat.le_div_iff_mul_le (by positivity), ← pow_add, ← ha]
    exact Nat.log2_self_le hne
  have hhigh : a / 2 ^ s < 2 ^ 53 := by
    rw [Nat.div_lt_iff_lt_mul (by positivity), ← pow_add, show 53 + s = a.log2 + 1 by omega]
    exact Nat.lt_log2_self
  rw [roundShift]
  split <;> omega

/-- A significand that may have carried out of its width. -/
theorem scaleMag_carry {e q : Nat} (hlow : 2 ^ 52 ≤ q) (hhigh : q ≤ 2 ^ 53) :
    scaleMag (e * 2 ^ 52 + q) = q * 2 ^ e := by
  rcases Nat.lt_or_ge q (2 ^ 53) with hlt | hge
  · rw [show e * 2 ^ 52 + q = (e + 1) * 2 ^ 52 + (q - 2 ^ 52) by omega, scaleMag_mul_add (by omega)]
    congr 1
    omega
  · rw [show e * 2 ^ 52 + q = (e + 1 + 1) * 2 ^ 52 + 0 by omega, scaleMag_mul_add (by omega), show q = 2 ^ 53 by omega]
    ring

/-- Integers convert to integral doubles. -/
theorem scaleMag_magOfNat (a : Nat) : 2 ^ 1074 ∣ scaleMag (magOfNat a) := by
  rw [magOfNat]
  by_cases ha : a = 0
  · rw [if_pos ha, scaleMag_zero]
    exact dvd_zero _
  rw [if_neg ha]
  rcases Nat.lt_or_ge 52 a.log2 with hlarge | hsmall
  · obtain ⟨s, hs⟩ := Nat.exists_eq_add_of_le hlarge.le
    obtain ⟨hlow, hhigh⟩ := roundShift_bounds hs
    rw [if_neg (by omega), show a.log2 - 52 = s by omega, scaleMag_carry hlow hhigh]
    apply Dvd.dvd.mul_left
    exact Nat.pow_dvd_pow 2 (by omega)
  · have hlow : 2 ^ 52 ≤ a * 2 ^ (52 - a.log2) := by
      calc 2 ^ 52 = 2 ^ a.log2 * 2 ^ (52 - a.log2) := by rw [← pow_add]; congr 1; omega
        _ ≤ a * 2 ^ (52 - a.log2) := Nat.mul_le_mul_right _ (Nat.log2_self_le ha)
    have hhigh : a * 2 ^ (52 - a.log2) ≤ 2 ^ 53 := by
      calc a * 2 ^ (52 - a.log2) ≤ 2 ^ (a.log2 + 1) * 2 ^ (52 - a.log2) :=
            Nat.mul_le_mul_right _ Nat.lt_log2_self.le
        _ = 2 ^ 53 := by rw [← pow_add]; congr 1; omega
    rw [if_pos hsmall, scaleMag_carry hlow hhigh, mul_assoc, ← pow_add]
    apply Dvd.dvd.mul_left
    exact Nat.pow_dvd_pow 2 (by omega)

theorem magOfNat_lt {a : Nat} (ha : a ≤ 2 ^ 63) : magOfNat a < infMag := by
  rw [magOfNat]
  by_cases hzero : a = 0
  · rw [if_pos hzero]
    decide
  have hlog : a.log2 < 64 := (Nat.log2_lt hzero).mpr (by omega)
  rw [if_neg hzero, infMag]
  rcases Nat.lt_or_ge 52 a.log2 with hlarge | hsmall
  · obtain ⟨s, hs⟩ := Nat.exists_eq_add_of_le hlarge.le
    have hround := roundShift_bounds hs
    rw [if_neg (by omega), show a.log2 - 52 = s by omega]
    omega
  · have hhigh : a * 2 ^ (52 - a.log2) ≤ 2 ^ 53 := by
      calc a * 2 ^ (52 - a.log2) ≤ 2 ^ (a.log2 + 1) * 2 ^ (52 - a.log2) :=
            Nat.mul_le_mul_right _ Nat.lt_log2_self.le
        _ = 2 ^ 53 := by rw [← pow_add]; congr 1; omega
    rw [if_pos hsmall]
    omega

/-- A double with an integer value. -/
def Integral (x : Binary64) (v : Int) : Prop := x.scaled = v * 2 ^ 1074

theorem ofInt_integral {v : Int} (hv : v.natAbs ≤ 2 ^ 63) : (ofInt v).isNaN = false ∧ ∃ w, (ofInt v).Integral w := by
  have hlt := magOfNat_lt hv
  have hfield : magOfNat v.natAbs < 2 ^ 63 := lt_trans hlt (by decide)
  constructor
  · rw [isNaN, ofInt, ofFields_mag hfield]
    simpa using hlt.le
  · obtain ⟨w, hw⟩ := scaleMag_magOfNat v.natAbs
    refine ⟨if v < 0 then -w else w, ?_⟩
    rw [Integral, ofInt, ofFields_scaled hfield, hw]
    by_cases hneg : v < 0
    · simp only [hneg, decide_true, if_true, Nat.cast_mul, Nat.cast_pow, Nat.cast_ofNat]
      ring
    · simp only [hneg, decide_false, Bool.false_eq_true, if_false, Nat.cast_mul, Nat.cast_pow, Nat.cast_ofNat]
      ring

theorem scaleMag_trunc {x : Binary64} : scaleMag (let e := x.mag / 2 ^ 52
      if e < 1023 then 0 else if e < 1075 then x.mag - x.mag % 2 ^ (1075 - e) else x.mag) =
      scaleMag x.mag / 2 ^ 1074 * 2 ^ 1074 := by
  dsimp only
  rcases Nat.lt_or_ge (x.mag / 2 ^ 52) 1023 with hsmall | hlarge
  · rw [if_pos hsmall, scaleMag_zero]
    have hlt : scaleMag x.mag < 2 ^ 1074 := by
      have hle : x.mag < 1023 * 2 ^ 52 := by omega
      have hunit : scaleMag (1023 * 2 ^ 52) = 2 ^ 1074 := by
        rw [show 1023 * 2 ^ 52 = (1022 + 1) * 2 ^ 52 + 0 by omega, scaleMag_mul_add (by decide), zero_add,
          ← pow_add]
      rw [← hunit]
      exact scaleMag_strictMono hle
    rw [Nat.div_eq_of_lt hlt, zero_mul]
  · rw [if_neg (by omega)]
    obtain ⟨e, he⟩ := Nat.exists_eq_add_of_le hlarge
    have hm : x.mag % 2 ^ 52 < 2 ^ 52 := Nat.mod_lt _ (by decide)
    have hmag : x.mag = (1022 + e + 1) * 2 ^ 52 + x.mag % 2 ^ 52 := by omega
    generalize x.mag % 2 ^ 52 = m at hm hmag
    rcases Nat.lt_or_ge (x.mag / 2 ^ 52) 1075 with hmid | hbig
    · rw [if_pos hmid]
      obtain ⟨s, hs⟩ : ∃ s, 52 = e + s := ⟨52 - e, by omega⟩
      have hcut : x.mag % 2 ^ (1075 - x.mag / 2 ^ 52) = m % 2 ^ s := by
        rw [show 1075 - x.mag / 2 ^ 52 = s by omega, hmag, Nat.add_mod,
          Nat.mod_eq_zero_of_dvd (Dvd.dvd.mul_left (Nat.pow_dvd_pow 2 (by omega)) _), zero_add, Nat.mod_mod]
      have hle : m % 2 ^ s ≤ m := Nat.mod_le _ _
      rw [hcut, show x.mag - m % 2 ^ s = (1022 + e + 1) * 2 ^ 52 + (m - m % 2 ^ s) by omega,
        scaleMag_mul_add (by omega), hmag, scaleMag_mul_add hm]
      have hunit : (2 : Nat) ^ 1074 = 2 ^ s * 2 ^ (1022 + e) := by rw [← pow_add]; congr 1; omega
      have hfloor : (m + 2 ^ 52) / 2 ^ s * 2 ^ s = m - m % 2 ^ s + 2 ^ 52 := by
        have hdvd : 2 ^ s ∣ 2 ^ 52 := Nat.pow_dvd_pow 2 (by omega)
        have hrem : (m + 2 ^ 52) % 2 ^ s = m % 2 ^ s := by
          rw [Nat.add_mod, Nat.mod_eq_zero_of_dvd hdvd, add_zero, Nat.mod_mod]
        have hdiv := Nat.div_add_mod' (m + 2 ^ 52) (2 ^ s)
        omega
      rw [hunit, Nat.mul_div_mul_right _ _ (by positivity), ← mul_assoc, hfloor]
    · rw [if_neg (by omega), hmag, scaleMag_mul_add hm]
      have hdvd : 2 ^ 1074 ∣ (m + 2 ^ 52) * 2 ^ (1022 + e) := by
        apply Dvd.dvd.mul_left
        exact Nat.pow_dvd_pow 2 (by omega)
      rw [Nat.div_mul_cancel hdvd]

theorem truncMag_le (x : Binary64) : (let e := x.mag / 2 ^ 52
      if e < 1023 then 0 else if e < 1075 then x.mag - x.mag % 2 ^ (1075 - e) else x.mag) ≤ x.mag := by
  dsimp only
  split
  · exact zero_le
  · split
    · exact Nat.sub_le _ _
    · exact Nat.le_refl _

theorem trunc_isNaN (h : x.isNaN = false) : x.trunc.isNaN = false := by
  have hle := truncMag_le x
  rw [isNaN, decide_eq_false_iff_not] at h ⊢
  rw [trunc, ofFields_mag (lt_of_le_of_lt hle x.mag_lt)]
  omega

theorem trunc_scaled (x : Binary64) : x.trunc.scaled = x.scaled.tdiv (2 ^ 1074) * 2 ^ 1074 := by
  have hscale := @scaleMag_trunc x
  have hlt := lt_of_le_of_lt (truncMag_le x) x.mag_lt
  have hcast : ((scaleMag x.mag / 2 ^ 1074 * 2 ^ 1074 : Nat) : Int) =
      (scaleMag x.mag : Int).tdiv (2 ^ 1074) * 2 ^ 1074 := by
    rw [Int.tdiv_eq_ediv_of_nonneg (Int.natCast_nonneg _)]
    push_cast
    rfl
  dsimp only at hscale hlt
  rw [trunc, ofFields_scaled hlt, hscale, hcast, scaled]
  by_cases hneg : x.neg = true
  · rw [if_pos hneg, if_pos hneg, Int.neg_tdiv, Int.neg_mul]
  · rw [if_neg hneg, if_neg hneg]

theorem Integral.trunc {v : Int} (h : x.Integral v) : x.scaled.tdiv (2 ^ 1074) = v := by
  have hne : (2 : Int) ^ 1074 ≠ 0 := by positivity
  rw [h, Int.mul_tdiv_cancel _ hne]

/-- In the range of `i64`, conversion truncates. -/
theorem toI64_eq (hnan : x.isNaN = false) (hlow : -2 ^ 63 ≤ x.scaled.tdiv (2 ^ 1074))
    (hhigh : x.scaled.tdiv (2 ^ 1074) < 2 ^ 63) : x.toI64 = x.scaled.tdiv (2 ^ 1074) := by
  rw [toI64, hnan]
  generalize x.scaled.tdiv (2 ^ 1074) = w at hlow hhigh
  simp only [Bool.false_eq_true, if_false]
  omega

/-- Truncation keeps a double within integer bounds. -/
theorem tdiv_bounds {n : Int} {low high : Int} (hlow : low * 2 ^ 1074 ≤ n) (hhigh : n < high * 2 ^ 1074)
    (hpos : 0 < high) : low ≤ n.tdiv (2 ^ 1074) ∧ n.tdiv (2 ^ 1074) < high := by
  have hunit : (0 : Int) < 2 ^ 1074 := by positivity
  generalize (2 : Int) ^ 1074 = u at *
  constructor
  · have hle := Int.tdiv_le_tdiv hunit hlow
    rwa [Int.mul_tdiv_cancel _ hunit.ne'] at hle
  · rcases le_or_gt 0 n with hn | hn
    · rw [Int.tdiv_eq_ediv_of_nonneg hn]
      exact Int.ediv_lt_of_lt_mul hunit hhigh
    · have hle := Int.tdiv_le_tdiv hunit hn.le
      rw [Int.zero_tdiv] at hle
      omega

end Binary64

end Lib
