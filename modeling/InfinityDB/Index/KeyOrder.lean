import InfinityDB.Index.Key

/-!
# The byte order of index keys

Coercion keeps the exact value of a number, and the encoded words and strings compare as the
coerced values do. The mixed comparison of an integer with a double agrees with both.
-/

namespace InfinityDB

open Lib List

/-- The exact value of a number, as the doubles' own scale has it. -/
def IndexScalar.scaled : IndexScalar → Option Int
  | .i64 v => some (v.toInt * 2 ^ 1074)
  | .f64 f => if f.isNaN then none else some f.scaled
  | _ => none

theorem scaled_twoPow63 : twoPow63.scaled = 2 ^ 63 * 2 ^ 1074 := by
  have hneg : twoPow63.neg = false := rfl
  have hmag : twoPow63.mag = (1085 + 1) * 2 ^ 52 + 0 := rfl
  rw [Binary64.scaled, hneg, hmag, Binary64.scaleMag_mul_add (by decide)]
  simp only [Bool.false_eq_true, if_false, zero_add, ← pow_add, Nat.cast_pow, Nat.cast_ofNat]

theorem scaled_negTwoPow63 : (Binary64.ofFields true twoPow63.mag).scaled = -2 ^ 63 * 2 ^ 1074 := by
  have hpos := scaled_twoPow63
  have hneg : twoPow63.neg = false := rfl
  rw [Binary64.scaled, hneg] at hpos
  simp only [Bool.false_eq_true, if_false] at hpos
  rw [Binary64.ofFields_scaled (Binary64.mag_lt _), if_pos rfl, hpos, Int.neg_mul]

variable {f : Binary64} {s v : IndexScalar} {keyType : IndexKeyType}

theorem inI64Range_iff (hnan : f.isNaN = false) :
    inI64Range f = true ↔ -2 ^ 63 * 2 ^ 1074 ≤ f.scaled ∧ f.scaled < 2 ^ 63 * 2 ^ 1074 := by
  have hend : twoPow63.isNaN = false := rfl
  have hstart : (Binary64.ofFields true twoPow63.mag).isNaN = false := rfl
  rw [inI64Range, Binary64.le, Binary64.lt, hnan, hend, hstart, scaled_negTwoPow63, scaled_twoPow63]
  simp only [Bool.not_false, Bool.true_and, Bool.and_eq_true, decide_eq_true_eq]

private theorem isNaN_of_inI64Range (h : inI64Range f = true) : f.isNaN = false := by
  rw [inI64Range, Binary64.le, Bool.and_eq_true, Bool.and_eq_true, Bool.and_eq_true] at h
  simpa using h.1.1.2

/-- An admitted integer is a double of the same value. -/
theorem coerceI64ToF64_scaled {v : Int64} (h : coerceI64ToF64 v = .ok s) :
    ∃ f, s = .f64 f ∧ f.isNaN = false ∧ f.scaled = v.toInt * 2 ^ 1074 := by
  rw [coerceI64ToF64] at h
  split at h
  next hok =>
    cases h
    rw [Bool.and_eq_true, beq_iff_eq] at hok
    obtain ⟨hrange, hback⟩ := hok
    have hnan := isNaN_of_inI64Range hrange
    have hlow := v.le_toInt
    have hhigh := v.toInt_lt
    obtain ⟨-, w, hw⟩ := Binary64.ofInt_integral (v := v.toInt) (by omega)
    obtain ⟨hmin, hmax⟩ := (inI64Range_iff hnan).mp hrange
    obtain ⟨hge, hlt⟩ := Binary64.tdiv_bounds hmin hmax (by decide)
    -- the conversion back is the integer the rounded double has
    rw [Binary64.toI64_eq hnan hge hlt, hw.trunc] at hback
    refine ⟨_, rfl, hnan, ?_⟩
    rw [hw, hback]
  · simp at h

/-- An admitted double is an integer of the same value. -/
theorem coerceF64ToI64_scaled (h : coerceF64ToI64 f = .ok s) :
    ∃ v, s = .i64 v ∧ f.isNaN = false ∧ f.scaled = v.toInt * 2 ^ 1074 := by
  rw [coerceF64ToI64] at h
  split at h
  · simp at h
  rename_i hnan
  split at h
  next hok =>
    cases h
    rw [Bool.and_eq_true] at hok
    obtain ⟨hrange, hwhole⟩ := hok
    have hnan : f.isNaN = false := by simpa using hnan
    obtain ⟨hmin, hmax⟩ := (inI64Range_iff hnan).mp hrange
    obtain ⟨hge, hlt⟩ := Binary64.tdiv_bounds hmin hmax (by decide)
    rw [Binary64.eq, Bool.and_eq_true, beq_iff_eq, Binary64.trunc_scaled] at hwhole
    refine ⟨_, rfl, hnan, ?_⟩
    rw [Binary64.toI64_eq hnan hge hlt, Int64.toInt_ofInt_of_le hge hlt, hwhole.2]
  · simp at h

/-- Coercion keeps the exact value of a number. -/
private theorem indexScalarCoerce_scaled {n : Int}
    (h : indexScalarCoerce keyType v = .ok s) (hv : v.scaled = some n) : s.scaled = some n := by
  have hnum {f : Binary64} (hnan : f.isNaN = false) : (IndexScalar.f64 f).scaled = some f.scaled := by
    rw [IndexScalar.scaled, hnan]
    rfl
  cases v with
  | null | bool b | utf8 t => simp [IndexScalar.scaled] at hv
  | i64 a =>
    cases keyType with
    | i64 =>
      cases h
      exact hv
    | f64 =>
      obtain ⟨f, rfl, hnan, hf⟩ := coerceI64ToF64_scaled h
      rw [hnum hnan, hf]
      exact hv
    | utf8 | bool => simp [indexScalarCoerce] at h
  | f64 f =>
    cases keyType with
    | i64 =>
      obtain ⟨a, rfl, hnan, hf⟩ := coerceF64ToI64_scaled h
      rw [hnum hnan, hf] at hv
      exact hv
    | f64 =>
      rw [indexScalarCoerce] at h
      split at h
      · simp at h
      cases h
      exact hv
    | utf8 | bool => simp [indexScalarCoerce] at h

private theorem canonicalF64_scaled : (canonicalF64 f).scaled = f.scaled := by
  rw [canonicalF64]
  split
  next hzero =>
    rw [Binary64.eq, Bool.and_eq_true, beq_iff_eq] at hzero
    exact hzero.2.symm
  · rfl

theorem canonicalF64_mag (hnan : f.isNaN = false) (hneg : (canonicalF64 f).neg = true) : (canonicalF64 f).mag ≠ 0 := by
  rw [canonicalF64] at hneg ⊢
  split at hneg
  · exact absurd hneg (by decide)
  rename_i hzero
  rw [if_neg hzero]
  intro hmag
  apply hzero
  have hz : (⟨0⟩ : Binary64).scaled = 0 := rfl
  have hn : (⟨0⟩ : Binary64).isNaN = false := rfl
  rw [Binary64.eq, hnan, hn, hz, Binary64.scaled_eq_zero.mpr hmag]
  rfl

theorem f64KeyWord_toNat (f : Binary64) : (f64KeyWord f).toNat =
      if (canonicalF64 f).neg then 2 ^ 63 - 1 - (canonicalF64 f).mag else 2 ^ 63 + (canonicalF64 f).mag := by
  have hbits := (canonicalF64 f).bits_eq
  have hmag := (canonicalF64 f).mag_lt
  have hsign := and_signBit (canonicalF64 f).bits
  rw [f64KeyWord]
  cases hneg : (canonicalF64 f).neg with
  | true =>
    rw [hneg, if_pos rfl] at hbits
    rw [if_pos (hsign.mpr (by omega)), if_pos rfl, UInt64.toNat_not, hbits]
    simp only [UInt64.size]
    omega
  | false =>
    rw [hneg] at hbits
    simp only [Bool.false_eq_true, if_false, add_zero] at hbits
    rw [if_neg (fun h => absurd (hsign.mp h) (by omega)), or_signBit (by omega), hbits]
    simp only [Bool.false_eq_true, if_false]
    omega

/-- Key words of doubles compare as their exact values. -/
theorem ordCmp_f64KeyWord {g : Binary64} (hf : f.isNaN = false) (hg : g.isNaN = false) :
    ordCmp (f64KeyWord f).toNat (f64KeyWord g).toNat = ordCmp f.scaled g.scaled := by
  have hfmag := canonicalF64_mag hf
  have hgmag := canonicalF64_mag hg
  have hflt := (canonicalF64 f).mag_lt
  have hglt := (canonicalF64 g).mag_lt
  have hword : (f64KeyWord f).toNat < (f64KeyWord g).toNat ↔
      (canonicalF64 f).signedMag < (canonicalF64 g).signedMag := by
    rw [f64KeyWord_toNat, f64KeyWord_toNat, Binary64.signedMag, Binary64.signedMag]
    split <;> split <;> simp_all <;> omega
  have hword' : (f64KeyWord g).toNat < (f64KeyWord f).toNat ↔
      (canonicalF64 g).signedMag < (canonicalF64 f).signedMag := by
    rw [f64KeyWord_toNat, f64KeyWord_toNat, Binary64.signedMag, Binary64.signedMag]
    split <;> split <;> simp_all <;> omega
  rw [← Binary64.scaled_lt_iff, canonicalF64_scaled, canonicalF64_scaled] at hword hword'
  rcases lt_trichotomy f.scaled g.scaled with h | h | h
  · rw [ordCmp_of_lt h, ordCmp_of_lt (hword.mpr h)]
  · rw [ordCmp_of_eq h, ordCmp_of_eq (by omega)]
  · rw [ordCmp_of_gt h, ordCmp_of_gt (hword'.mpr h)]

private theorem escape_of_not_mem {bytes : Bytes} (h : 0 ∉ bytes) : escape bytes = bytes := by
  induction bytes with
  | nil => rfl
  | cons b rest ih =>
    rw [mem_cons, not_or] at h
    rw [escape, if_neg (Ne.symm h.1), ih h.2]

/-- The two paths of the string encoder agree. -/
theorem encodeUtf8_eq (s : Str) : encodeUtf8 s = escape s.bytes ++ [0] := by
  rw [encodeUtf8]
  split
  · rfl
  next h => rw [escape_of_not_mem (by simpa using h)]

private theorem ordCmp_cons (b : UInt8) (k l : Bytes) : ordCmp (b :: k) (b :: l) = ordCmp k l := by
  rcases lt_trichotomy k l with h | h | h
  · rw [ordCmp_of_lt h, ordCmp_of_lt (cons_lt_cons_iff.mpr (.inr ⟨rfl, h⟩))]
  · rw [ordCmp_of_eq h, ordCmp_of_eq (by rw [h])]
  · rw [ordCmp_of_gt h, ordCmp_of_gt (cons_lt_cons_iff.mpr (.inr ⟨rfl, h⟩))]

private theorem escape_cons_lt {b c : UInt8} (h : b < c) (k l : Bytes) : escape (b :: k) ++ [0] < escape (c :: l) ++ [0] := by
  have hc : c ≠ 0 := by
    intro hz
    rw [hz] at h
    exact UInt8.not_lt_zero h
  rw [escape, escape, if_neg hc]
  split
  next hb =>
    subst hb
    exact cons_lt_cons_iff.mpr (.inl h)
  · exact cons_lt_cons_iff.mpr (.inl h)

private theorem terminator_lt_escape (b : UInt8) (k : Bytes) : [0] < escape (b :: k) ++ [0] := by
  rw [escape]
  split
  · exact cons_lt_cons_iff.mpr (.inr ⟨rfl, nil_lt_cons _ _⟩)
  next hb =>
    apply cons_lt_cons_iff.mpr
    left
    exact UInt8.pos_iff_ne_zero.mpr hb

/-- Escaping keeps the byte order, and the terminator makes a proper prefix smaller. -/
private theorem ordCmp_escape (k l : Bytes) : ordCmp (escape k ++ [0]) (escape l ++ [0]) = ordCmp k l := by
  induction k generalizing l with
  | nil =>
    cases l with
    | nil => rfl
    | cons c l =>
      rw [ordCmp_of_lt (nil_lt_cons c l)]
      exact ordCmp_of_lt (terminator_lt_escape c l)
  | cons b k ih =>
    cases l with
    | nil =>
      rw [ordCmp_of_gt (nil_lt_cons b k)]
      exact ordCmp_of_gt (terminator_lt_escape b k)
    | cons c l =>
      rcases lt_trichotomy b c with h | h | h
      · rw [ordCmp_of_lt (escape_cons_lt h k l), ordCmp_of_lt (cons_lt_cons_iff.mpr (.inl h))]
      · subst h
        rw [ordCmp_cons, ← ih l, escape, escape]
        split
        · rw [cons_append, cons_append, cons_append, cons_append, ordCmp_cons, ordCmp_cons]
        · rw [cons_append, cons_append, ordCmp_cons]
      · rw [ordCmp_of_gt (escape_cons_lt h l k), ordCmp_of_gt (cons_lt_cons_iff.mpr (.inl h))]

private theorem tdiv_between (n : Int) {u : Int} (hu : 0 < u) : (n.tdiv u - 1) * u < n ∧ n < (n.tdiv u + 1) * u := by
  have hsum := Int.mul_tdiv_add_tmod n u
  have hlow := Int.lt_tmod_of_pos n hu
  have hhigh := Int.tmod_lt_of_pos n hu
  constructor <;> nlinarith

/-- An integer against a double: the order of the exact values. -/
theorem compareI64F64_eq (a : Int64) {b : Binary64} (hb : b.isNaN = false) :
    compareI64F64 a b = ordCmp (a.toInt * 2 ^ 1074) b.scaled := by
  have hend : twoPow63.isNaN = false := rfl
  have hstart : (Binary64.ofFields true twoPow63.mag).isNaN = false := rfl
  have hlow := a.le_toInt
  have hhigh := a.toInt_lt
  have hunit : (0 : Int) < 2 ^ 1074 := by positivity
  have hle : twoPow63.le b = true ↔ 2 ^ 63 * 2 ^ 1074 ≤ b.scaled := by
    rw [Binary64.le, hend, hb, scaled_twoPow63]
    simp only [Bool.not_false, Bool.true_and, decide_eq_true_eq]
  have hlt : b.lt (Binary64.ofFields true twoPow63.mag) = true ↔ b.scaled < -2 ^ 63 * 2 ^ 1074 := by
    rw [Binary64.lt, hstart, hb, scaled_negTwoPow63]
    simp only [Bool.not_false, Bool.true_and, decide_eq_true_eq]
  rw [compareI64F64]
  by_cases hge : twoPow63.le b = true
  · rw [if_pos hge, ordCmp_of_lt]
    exact lt_of_lt_of_le (mul_lt_mul_of_pos_right hhigh hunit) (hle.mp hge)
  rw [if_neg hge]
  by_cases hbelow : b.lt (Binary64.ofFields true twoPow63.mag) = true
  · rw [if_pos hbelow, ordCmp_of_gt]
    exact lt_of_lt_of_le (hlt.mp hbelow) (mul_le_mul_of_nonneg_right hlow hunit.le)
  rw [if_neg hbelow]
  have hmin : -2 ^ 63 * 2 ^ 1074 ≤ b.scaled := not_lt.mp fun h => hbelow (hlt.mpr h)
  have hmax : b.scaled < 2 ^ 63 * 2 ^ 1074 := not_le.mp fun h => hge (hle.mpr h)
  obtain ⟨hqmin, hqmax⟩ := Binary64.tdiv_bounds hmin hmax (by decide)
  have hint : b.trunc.Integral (b.scaled.tdiv (2 ^ 1074)) := b.trunc_scaled
  have htrunc : b.trunc.toI64 = b.scaled.tdiv (2 ^ 1074) := by
    rw [Binary64.toI64_eq (Binary64.trunc_isNaN hb) (by rw [hint.trunc]; exact hqmin)
      (by rw [hint.trunc]; exact hqmax), hint.trunc]
  obtain ⟨hfloor, hceil⟩ := tdiv_between b.scaled hunit
  have htlt (x y : Binary64) (hx : x.isNaN = false) (hy : y.isNaN = false) : x.lt y = true ↔ x.scaled < y.scaled := by
    rw [Binary64.lt, hx, hy]
    simp only [Bool.not_false, Bool.true_and, decide_eq_true_eq]
  dsimp only
  rw [htrunc]
  rcases lt_trichotomy a.toInt (b.scaled.tdiv (2 ^ 1074)) with h | h | h
  · rw [ordCmp_of_lt h, ordCmp_of_lt]
    exact lt_of_le_of_lt (mul_le_mul_of_nonneg_right (by omega) hunit.le) hfloor
  · rw [ordCmp_of_eq h, h, ← hint]
    have hnan := Binary64.trunc_isNaN hb
    rcases lt_trichotomy b.trunc.scaled b.scaled with hc | hc | hc
    · rw [ordCmp_of_lt hc]
      simp only [(htlt _ _ hnan hb).mpr hc, if_true]
    · have h1 : ¬ b.trunc.lt b = true := fun h => absurd ((htlt _ _ hnan hb).mp h) (by omega)
      have h2 : ¬ b.lt b.trunc = true := fun h => absurd ((htlt _ _ hb hnan).mp h) (by omega)
      rw [ordCmp_of_eq hc]
      simp only [if_neg h1, if_neg h2]
    · have h1 : ¬ b.trunc.lt b = true := fun h => absurd ((htlt _ _ hnan hb).mp h) (by omega)
      rw [ordCmp_of_gt hc]
      simp only [if_neg h1, (htlt _ _ hb hnan).mpr hc, if_true]
  · rw [ordCmp_of_gt h, ordCmp_of_gt]
    exact lt_of_lt_of_le hceil (mul_le_mul_of_nonneg_right (by omega) hunit.le)

theorem ordCmp_congr {α β : Type} [LinearOrder α] [LinearOrder β] {a b : α} {c d : β}
    (hlt : a < b ↔ c < d) (hgt : b < a ↔ d < c) : ordCmp a b = ordCmp c d := by
  rcases lt_trichotomy a b with h | h | h
  · rw [ordCmp_of_lt h, ordCmp_of_lt (hlt.mp h)]
  · have hc : ¬ c < d := fun hcd => absurd (hlt.mpr hcd) (h ▸ lt_irrefl _)
    have hd : ¬ d < c := fun hdc => absurd (hgt.mpr hdc) (h ▸ lt_irrefl _)
    rw [ordCmp_of_eq h, ordCmp_of_eq (le_antisymm (not_lt.mp hd) (not_lt.mp hc))]
  · rw [ordCmp_of_gt h, ordCmp_of_gt (hgt.mp h)]

def intValue (v : Int64) : WithBot (WithTop ℚ) := (((v.toInt : ℚ) : WithTop ℚ) : WithBot (WithTop ℚ))

/-- The infinities lie beyond every integer of 64 bits. -/
private theorem two_pow_lt_inf : (2 ^ 63 * 2 ^ 1074 : Int) < Binary64.scaleMag Binary64.infMag := by
  have hneg : twoPow63.neg = false := rfl
  have hval := scaled_twoPow63
  have hlt : twoPow63.mag < Binary64.infMag := by decide
  rw [Binary64.scaled, hneg] at hval
  simp only [Bool.false_eq_true, if_false] at hval
  rw [← hval, Int.ofNat_lt]
  exact Binary64.scaleMag_strictMono hlt

private theorem ordCmp_intValue (a : Int64) {b : Binary64} (hb : b.isNaN = false) :
    ordCmp (intValue a) b.value = ordCmp (a.toInt * 2 ^ 1074) b.scaled := by
  have hlow := a.le_toInt
  have hhigh := a.toInt_lt
  by_cases hfin : b.isFinite = true
  · rw [intValue, Binary64.value, if_pos hfin]
    have hunit : (0 : ℚ) < 2 ^ 1074 := by positivity
    apply ordCmp_congr
    · rw [WithBot.coe_lt_coe, WithTop.coe_lt_coe, lt_div_iff₀ hunit]
      exact_mod_cast Iff.rfl
    · rw [WithBot.coe_lt_coe, WithTop.coe_lt_coe, div_lt_iff₀ hunit]
      exact_mod_cast Iff.rfl
  · have hmag : b.mag = Binary64.infMag := by
      simp only [Binary64.isNaN, Binary64.isFinite, decide_eq_true_eq, decide_eq_false_iff_not] at hb hfin
      omega
    have hinf := two_pow_lt_inf
    have hbelow : a.toInt * 2 ^ 1074 < 2 ^ 63 * 2 ^ 1074 := mul_lt_mul_of_pos_right hhigh (by positivity)
    have habove : -2 ^ 63 * 2 ^ 1074 ≤ a.toInt * 2 ^ 1074 := mul_le_mul_of_nonneg_right hlow (by positivity)
    rw [intValue, Binary64.value, if_neg hfin, Binary64.scaled, hmag]
    cases b.neg with
    | true =>
      rw [if_pos rfl, if_pos rfl, ordCmp_of_gt (WithBot.bot_lt_coe _), ordCmp_of_gt]
      rw [Int.neg_mul] at habove
      exact lt_of_lt_of_le (Int.neg_lt_neg hinf) habove
    | false =>
      simp only [Bool.false_eq_true, if_false]
      rw [ordCmp_of_lt (WithBot.coe_lt_coe.mpr (WithTop.coe_lt_top _)), ordCmp_of_lt (lt_trans hbelow hinf)]

def IndexScalar.valueCmp : IndexScalar → IndexScalar → Option Ordering
  | .i64 v, .i64 w => some (ordCmp v.toInt w.toInt)
  | .f64 f, .f64 g => some (ordCmp f.value g.value)
  | .bool a, .bool b => some (ordCmp a b)
  | .utf8 s, .utf8 t => some (ordCmp s.bytes t.bytes)
  | _, _ => none

def encodeAdmitted : IndexScalar → Bytes
  | .i64 v => putWord (v.toUInt64 ^^^ signBit)
  | .f64 f => putWord (f64KeyWord f)
  | .bool b => putWord (if b then 1 else 0)
  | .utf8 s => encodeUtf8 s
  | .null => []

/-- What a type admits: values of its own kind, doubles only as numbers, strings within the cap. -/
inductive Admits : IndexKeyType → IndexScalar → Prop where
  | i64 (v : Int64) : Admits .i64 (.i64 v)
  | f64 {f : Binary64} (h : f.isNaN = false) : Admits .f64 (.f64 f)
  | bool (b : Bool) : Admits .bool (.bool b)
  | utf8 {s : Str} (h : utf8EncodedLen s ≤ orderedKeyMax) : Admits .utf8 (.utf8 s)

theorem indexScalarCoerce_admits (h : indexScalarCoerce keyType v = .ok s) : Admits keyType s := by
  cases keyType <;> cases v <;> try simp [indexScalarCoerce] at h
  case i64.i64 v =>
    subst h
    exact .i64 v
  case i64.f64 f =>
    obtain ⟨a, rfl, -⟩ := coerceF64ToI64_scaled h
    exact .i64 a
  case f64.i64 v =>
    obtain ⟨f, rfl, hnan, -⟩ := coerceI64ToF64_scaled h
    exact .f64 hnan
  case f64.f64 f =>
    split at h
    · simp at h
    rename_i hnan
    cases h
    exact .f64 (by simpa using hnan)
  case bool.bool b =>
    subst h
    exact .bool b
  case utf8.utf8 t =>
    split at h
    · simp at h
    rename_i hlen
    cases h
    exact .utf8 (not_lt.mp hlen)

theorem indexKeyEncode_eq {keyType : IndexKeyType} {v s : IndexScalar}
    (h : indexScalarCoerce keyType v = .ok s) : indexKeyEncode keyType v = .ok (encodeAdmitted s) := by
  rw [indexKeyEncode, h]
  cases indexScalarCoerce_admits h <;> rfl

theorem ordCmp_offset (v w : Int64) :
    ordCmp (v.toUInt64 ^^^ signBit).toNat (w.toUInt64 ^^^ signBit).toNat = ordCmp v.toInt w.toInt := by
  have hv := offset_toNat v
  have hw := offset_toNat w
  apply ordCmp_congr <;> omega

/-- The byte order of encoded keys is the order of the coerced values. -/
private theorem ordCmp_encodeAdmitted {w t : IndexScalar}
    (hv : indexScalarCoerce keyType v = .ok s) (hw : indexScalarCoerce keyType w = .ok t) :
    s.valueCmp t = some (ordCmp (encodeAdmitted s) (encodeAdmitted t)) := by
  have hs := indexScalarCoerce_admits hv
  have ht := indexScalarCoerce_admits hw
  cases keyType with
  | i64 =>
    cases hs
    cases ht
    rw [IndexScalar.valueCmp, encodeAdmitted, encodeAdmitted, ordCmp_putWord, ordCmp_offset]
  | f64 =>
    cases hs with
    | f64 hf =>
    cases ht with
    | f64 hg =>
    rw [IndexScalar.valueCmp, encodeAdmitted, encodeAdmitted, ordCmp_putWord, ordCmp_f64KeyWord hf hg]
    rw [ordCmp_congr (Binary64.value_lt_iff hf hg) (Binary64.value_lt_iff hg hf)]
  | bool =>
    cases hs
    cases ht
    rename_i a b
    rw [IndexScalar.valueCmp, encodeAdmitted, encodeAdmitted, ordCmp_putWord]
    cases a <;> cases b <;> rfl
  | utf8 =>
    cases hs
    cases ht
    rw [IndexScalar.valueCmp, encodeAdmitted, encodeAdmitted, encodeUtf8_eq, encodeUtf8_eq, ordCmp_escape]

/-- Two numbers admitted into one type encode in the order of their exact values. -/
private theorem ordCmp_encodeAdmitted_scaled {w t : IndexScalar} {m n : Int}
    (hv : indexScalarCoerce keyType v = .ok s) (hw : indexScalarCoerce keyType w = .ok t)
    (hm : v.scaled = some m) (hn : w.scaled = some n) : ordCmp (encodeAdmitted s) (encodeAdmitted t) = ordCmp m n := by
  have hs := indexScalarCoerce_admits hv
  have ht := indexScalarCoerce_admits hw
  have hsm := indexScalarCoerce_scaled hv hm
  have htn := indexScalarCoerce_scaled hw hn
  cases keyType with
  | i64 =>
    cases hs
    cases ht
    rw [encodeAdmitted, encodeAdmitted, ordCmp_putWord, ordCmp_offset]
    cases hsm
    cases htn
    have hunit : (0 : Int) < 2 ^ 1074 := by positivity
    exact ordCmp_congr (mul_lt_mul_iff_left₀ hunit).symm (mul_lt_mul_iff_left₀ hunit).symm
  | f64 =>
    cases hs with
    | f64 hf =>
    cases ht with
    | f64 hg =>
    simp only [IndexScalar.scaled, hf, hg, Bool.false_eq_true, if_false, Option.some.injEq] at hsm htn
    rw [encodeAdmitted, encodeAdmitted, ordCmp_putWord, ordCmp_f64KeyWord hf hg, hsm, htn]
  | bool | utf8 =>
    cases hs
    simp [IndexScalar.scaled] at hsm

/-- Encoded keys compare as the coerced values, and a mixed pair compares by the exact values. -/
theorem indexKeyEncode_order (keyType : IndexKeyType) :
    (∀ v w s t, indexScalarCoerce keyType v = .ok s → indexScalarCoerce keyType w = .ok t →
      ∃ k l, indexKeyEncode keyType v = .ok k ∧ indexKeyEncode keyType w = .ok l ∧ s.valueCmp t = some (ordCmp k l)) ∧
    (∀ a f s t, indexScalarCoerce keyType (.i64 a) = .ok s → indexScalarCoerce keyType (.f64 f) = .ok t →
      ∃ k l, indexKeyEncode keyType (.i64 a) = .ok k ∧ indexKeyEncode keyType (.f64 f) = .ok l ∧
        ordCmp k l = compareI64F64 a f ∧ ordCmp l k = (compareI64F64 a f).swap) ∧
    (∀ a (f : Binary64), f.isNaN = false → compareI64F64 a f = ordCmp (intValue a) f.value) := by
  refine ⟨?_, ?_, ?_⟩
  · intro v w s t hv hw
    exact ⟨_, _, indexKeyEncode_eq hv, indexKeyEncode_eq hw, ordCmp_encodeAdmitted hv hw⟩
  · intro a f s t ha hf
    have hnan : f.isNaN = false := by
      cases keyType with
      | i64 =>
        obtain ⟨-, -, hnan, -⟩ := coerceF64ToI64_scaled hf
        exact hnan
      | f64 =>
        rw [indexScalarCoerce] at hf
        split at hf
        · simp at hf
        rename_i hnan
        simpa using hnan
      | bool | utf8 => simp [indexScalarCoerce] at hf
    have hfs : (IndexScalar.f64 f).scaled = some f.scaled := by
      rw [IndexScalar.scaled, hnan]
      rfl
    refine ⟨_, _, indexKeyEncode_eq ha, indexKeyEncode_eq hf, ?_, ?_⟩
    · rw [compareI64F64_eq a hnan, ordCmp_encodeAdmitted_scaled ha hf rfl hfs]
    · rw [compareI64F64_eq a hnan, ordCmp_encodeAdmitted_scaled hf ha hfs rfl, ordCmp, ordCmp, cmp_swap]
  · intro a f hnan
    rw [compareI64F64_eq a hnan, ordCmp_intValue a hnan]

/-- `1` before `1.5` among the doubles, and `"a"` before `"b"` among the strings. -/
theorem indexKeyEncode_order_samples :
    (∃ k l, indexKeyEncode .f64 (.i64 1) = .ok k ∧ indexKeyEncode .f64 (.f64 ⟨0x3FF8000000000000⟩) = .ok l ∧
      ordCmp k l = compareI64F64 1 ⟨0x3FF8000000000000⟩ ∧ ordCmp l k = (compareI64F64 1 ⟨0x3FF8000000000000⟩).swap) ∧
    (∃ k l, indexKeyEncode .utf8 (.utf8 ⟨[97], rfl⟩) = .ok k ∧ indexKeyEncode .utf8 (.utf8 ⟨[98], rfl⟩) = .ok l ∧
      (IndexScalar.utf8 ⟨[97], rfl⟩).valueCmp (.utf8 ⟨[98], rfl⟩) = some (ordCmp k l)) ∧
    compareI64F64 1 ⟨0x3FF8000000000000⟩ = ordCmp (intValue 1) (⟨0x3FF8000000000000⟩ : Binary64).value := by
  refine ⟨?_, ?_, ?_⟩
  · exact (indexKeyEncode_order .f64).2.1 1 ⟨0x3FF8000000000000⟩ (.f64 ⟨0x3FF0000000000000⟩)
      (.f64 ⟨0x3FF8000000000000⟩) (by decide +kernel) rfl
  · exact (indexKeyEncode_order .utf8).1 (.utf8 ⟨[97], rfl⟩) (.utf8 ⟨[98], rfl⟩) _ _ rfl rfl
  · exact (indexKeyEncode_order .f64).2.2 1 ⟨0x3FF8000000000000⟩ rfl

end InfinityDB
