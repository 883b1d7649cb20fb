import Mathlib

/-!
# Well-formed UTF-8

The octet sequences of RFC 3629: no overlong forms, no surrogates, nothing above `U+10FFFF`.
-/

namespace Lib

open List

def utf8Tail (b : UInt8) : Bool := 0x80 ≤ b && b ≤ 0xBF

/-- The second octet of a three-octet sequence with the given first one. -/
def utf8Second3 (a b : UInt8) : Bool :=
  (a == 0xE0 && 0xA0 ≤ b && b ≤ 0xBF) || (0xE1 ≤ a && a ≤ 0xEC && utf8Tail b) ||
    (a == 0xED && 0x80 ≤ b && b ≤ 0x9F) || (0xEE ≤ a && a ≤ 0xEF && utf8Tail b)

/-- The second octet of a four-octet sequence with the given first one. -/
def utf8Second4 (a b : UInt8) : Bool :=
  (a == 0xF0 && 0x90 ≤ b && b ≤ 0xBF) || (0xF1 ≤ a && a ≤ 0xF3 && utf8Tail b) ||
    (a == 0xF4 && 0x80 ≤ b && b ≤ 0x8F)

def validUtf8 : List UInt8 → Bool
  | [] => true
  | a :: rest =>
    if a < 0x80 then validUtf8 rest
    else
      match rest with
      | [] => false
      | b :: rest =>
        if 0xC2 ≤ a && a ≤ 0xDF then utf8Tail b && validUtf8 rest
        else
          match rest with
          | [] => false
          | c :: rest =>
            if utf8Second3 a b then utf8Tail c && validUtf8 rest
            else
              match rest with
              | [] => false
              | d :: rest => utf8Second4 a b && utf8Tail c && utf8Tail d && validUtf8 rest

/-- The octets of one character. -/
def utf8Char : List UInt8 → Bool
  | [a] => a < 0x80
  | [a, b] => 0xC2 ≤ a && a ≤ 0xDF && utf8Tail b
  | [a, b, c] => utf8Second3 a b && utf8Tail c
  | [a, b, c, d] => utf8Second4 a b && utf8Tail c && utf8Tail d
  | _ => false

/-- The leading octet tells the length apart. -/
private theorem lead_of_second3 {a b : UInt8} (h : utf8Second3 a b = true) :
    ¬ a < 0x80 ∧ (0xC2 ≤ a && a ≤ 0xDF) = false ∧ 0xE0 ≤ a ∧ a ≤ 0xEF ∧ 0x80 ≤ b := by
  simp only [utf8Second3, utf8Tail, Bool.or_eq_true, Bool.and_eq_true, beq_iff_eq, decide_eq_true_eq,
    UInt8.le_iff_toNat_le] at h
  simp only [Bool.and_eq_false_iff, decide_eq_false_iff_not, UInt8.lt_iff_toNat_lt, UInt8.le_iff_toNat_le]
  simp only [← UInt8.toNat_inj, UInt8.toNat_ofNat] at h ⊢
  omega

private theorem lead_of_second4 {a b : UInt8} (h : utf8Second4 a b = true) :
    ¬ a < 0x80 ∧ (0xC2 ≤ a && a ≤ 0xDF) = false ∧ utf8Second3 a b = false ∧ 0x80 ≤ a ∧ 0x80 ≤ b := by
  have hthree : ¬ utf8Second3 a b = true := by
    intro h3
    have hlead := (lead_of_second3 h3).2.2.2.1
    simp only [utf8Second4, Bool.or_eq_true, Bool.and_eq_true, beq_iff_eq, decide_eq_true_eq,
      UInt8.le_iff_toNat_le] at h
    simp only [← UInt8.toNat_inj, UInt8.toNat_ofNat, UInt8.le_iff_toNat_le] at h hlead
    omega
  simp only [utf8Second4, utf8Tail, Bool.or_eq_true, Bool.and_eq_true, beq_iff_eq, decide_eq_true_eq,
    UInt8.le_iff_toNat_le] at h
  refine ⟨?_, ?_, Bool.eq_false_iff.mpr hthree, ?_, ?_⟩
  all_goals
    simp only [Bool.and_eq_false_iff, decide_eq_false_iff_not, UInt8.lt_iff_toNat_lt, UInt8.le_iff_toNat_le]
    simp only [← UInt8.toNat_inj, UInt8.toNat_ofNat] at h ⊢
    omega

/-- A character in front of well-formed text, and only there. -/
theorem validUtf8_char_append {c : List UInt8} (hc : utf8Char c = true) (t : List UInt8) :
    validUtf8 (c ++ t) = validUtf8 t := by
  match c, hc with
  | [a], hc =>
    have ha : a < 0x80 := by simpa [utf8Char] using hc
    rw [singleton_append, validUtf8.eq_def]
    simp only [if_pos ha]
  | [a, b], hc =>
    simp only [utf8Char, Bool.and_eq_true] at hc
    have ha : ¬ a < 0x80 := by
      have := hc.1.1
      simp only [decide_eq_true_eq, UInt8.le_iff_toNat_le, UInt8.lt_iff_toNat_lt, UInt8.toNat_ofNat] at this ⊢
      omega
    rw [validUtf8.eq_def]
    simp only [cons_append, nil_append, if_neg ha, hc.1.1, hc.1.2, hc.2, Bool.and_self, if_true, Bool.true_and]
  | [a, b, c], hc =>
    simp only [utf8Char, Bool.and_eq_true] at hc
    obtain ⟨ha, htwo, -⟩ := lead_of_second3 hc.1
    rw [validUtf8.eq_def]
    simp only [cons_append, nil_append, if_neg ha, htwo, hc.1, hc.2, Bool.false_eq_true, if_false,
      if_true, Bool.true_and]
  | [a, b, c, d], hc =>
    simp only [utf8Char, Bool.and_eq_true] at hc
    obtain ⟨ha, htwo, hthree, -⟩ := lead_of_second4 hc.1.1
    rw [validUtf8.eq_def]
    simp only [cons_append, nil_append, if_neg ha, htwo, hthree, hc.1.1, hc.1.2, hc.2,
      Bool.false_eq_true, if_false, Bool.true_and]

theorem exists_char_of_validUtf8 {a : UInt8} {rest : List UInt8} (h : validUtf8 (a :: rest) = true) :
    ∃ c t, a :: rest = c ++ t ∧ utf8Char c = true ∧ validUtf8 t = true := by
  rw [validUtf8.eq_def] at h
  simp only at h
  split at h
  next ha => exact ⟨[a], rest, rfl, by simpa [utf8Char] using ha, h⟩
  match rest with
  | [] => simp at h
  | b :: rest =>
    simp only at h
    split at h
    next htwo =>
      rw [Bool.and_eq_true] at h
      exact ⟨[a, b], rest, rfl, by rw [utf8Char, htwo, h.1]; rfl, h.2⟩
    match rest with
    | [] => simp at h
    | c :: rest =>
      simp only at h
      split at h
      next hthree =>
        rw [Bool.and_eq_true] at h
        exact ⟨[a, b, c], rest, rfl, by rw [utf8Char, hthree, h.1]; rfl, h.2⟩
      · match rest with
        | [] => simp at h
        | d :: rest =>
          simp only [Bool.and_eq_true] at h
          exact ⟨[a, b, c, d], rest, rfl, by rw [utf8Char, h.1.1.1, h.1.1.2, h.1.2]; rfl, h.2⟩

theorem utf8Char_ne_nil {c : List UInt8} (hc : utf8Char c = true) : c ≠ [] := by
  intro h
  rw [h] at hc
  exact absurd hc (by decide)

/-- An octet of a character is the whole of it, or not ASCII. -/
theorem utf8Char_ascii {c : List UInt8} (hc : utf8Char c = true) : (∃ a, c = [a] ∧ a < 0x80) ∨ ∀ b ∈ c, 0x80 ≤ b := by
  have htail {b : UInt8} (h : utf8Tail b = true) : 0x80 ≤ b := by
    rw [utf8Tail, Bool.and_eq_true, decide_eq_true_eq] at h
    exact h.1
  match c, hc with
  | [a], hc => exact .inl ⟨a, rfl, by simpa [utf8Char] using hc⟩
  | [a, b], hc =>
    right
    simp only [utf8Char, Bool.and_eq_true, decide_eq_true_eq] at hc
    have ha : 0x80 ≤ a := UInt8.le_trans (by decide : (0x80 : UInt8) ≤ 0xC2) hc.1.1
    simpa using ⟨ha, htail hc.2⟩
  | [a, b, c], hc =>
    right
    simp only [utf8Char, Bool.and_eq_true] at hc
    obtain ⟨-, -, ha, -, hb⟩ := lead_of_second3 hc.1
    have ha : 0x80 ≤ a := UInt8.le_trans (by decide : (0x80 : UInt8) ≤ 0xE0) ha
    simpa using ⟨ha, hb, htail hc.2⟩
  | [a, b, c, d], hc =>
    right
    simp only [utf8Char, Bool.and_eq_true] at hc
    obtain ⟨-, -, -, ha, hb⟩ := lead_of_second4 hc.1.1
    simpa using ⟨ha, hb, htail hc.1.2, htail hc.2⟩

/-- Well-formed text, one character at a time. -/
theorem validUtf8_induction {P : List UInt8 → Prop} (hnil : P [])
    (hchar : ∀ c t, utf8Char c = true → validUtf8 t = true → P t → P (c ++ t)) {l : List UInt8}
    (h : validUtf8 l = true) : P l := by
  induction hn : l.length using Nat.strong_induction_on generalizing l with
  | _ n ih =>
    cases l with
    | nil => exact hnil
    | cons a rest =>
      obtain ⟨c, t, hsplit, hc, ht⟩ := exists_char_of_validUtf8 h
      have hpos := length_pos_of_ne_nil (utf8Char_ne_nil hc)
      rw [hsplit]
      apply hchar c t hc ht
      apply ih t.length ?_ ht rfl
      rw [← hn, hsplit, length_append]
      omega

theorem validUtf8_append {k : List UInt8} (hk : validUtf8 k = true) (l : List UInt8) :
    validUtf8 (k ++ l) = validUtf8 l := by
  apply @validUtf8_induction (fun k => validUtf8 (k ++ l) = validUtf8 l) rfl ?_ k hk
  intro c t hc ht ih
  rw [append_assoc, validUtf8_char_append hc, ih]

theorem validUtf8_ascii {a : UInt8} (ha : a < 0x80) (t : List UInt8) : validUtf8 (a :: t) = validUtf8 t :=
  @validUtf8_char_append [a] (by simpa [utf8Char] using ha) t

theorem validUtf8_of_ascii {k : List UInt8} (h : ∀ b ∈ k, b < 0x80) : validUtf8 k = true := by
  induction k with
  | nil => rfl
  | cons b k ih =>
    rw [validUtf8_ascii (h b mem_cons_self)]
    exact ih (forall_mem_cons.mp h).2

/-- A test that treats the octets beyond ASCII alike splits text between characters. -/
theorem validUtf8_takeWhile {p : UInt8 → Bool}
    (hp : (∀ b, 0x80 ≤ b → p b = true) ∨ ∀ b, 0x80 ≤ b → p b = false) {l : List UInt8} (h : validUtf8 l = true) :
    validUtf8 (l.takeWhile p) = true ∧ validUtf8 (l.dropWhile p) = true := by
  apply @validUtf8_induction (fun l => validUtf8 (l.takeWhile p) = true ∧ validUtf8 (l.dropWhile p) = true)
    ⟨rfl, rfl⟩ ?_ l h
  intro c t hc ht ih
  by_cases hall : ∀ b ∈ c, p b = true
  · rw [takeWhile_append_of_pos hall, dropWhile_append_of_pos hall, validUtf8_char_append hc]
    exact ih
  have hhead : ∃ a r, c = a :: r ∧ p a = false := by
    rcases utf8Char_ascii hc with ⟨a, rfl, -⟩ | hhigh
    · exact ⟨a, [], rfl, by simpa using hall⟩
    · cases c with
      | nil => exact absurd (fun _ hb => absurd hb not_mem_nil) hall
      | cons a r =>
        refine ⟨a, r, rfl, ?_⟩
        rcases hp with hp | hp
        · exact absurd (fun b hb => hp b (hhigh b hb)) hall
        · exact hp a (hhigh a mem_cons_self)
  obtain ⟨a, r, rfl, ha⟩ := hhead
  rw [cons_append, takeWhile_cons, dropWhile_cons, ha]
  simp only [Bool.false_eq_true, if_false]
  refine ⟨rfl, ?_⟩
  rw [← cons_append, validUtf8_char_append hc]
  exact ht

/-- A Unicode scalar value: a code point that is no surrogate. -/
def isScalarValue (code : Nat) : Bool := code < 0xD800 || (0xE000 ≤ code && code < 0x110000)

/-- The octets of a scalar value. -/
def utf8OfCode (code : Nat) : List UInt8 :=
  if code < 0x80 then [UInt8.ofNat code]
  else if code < 0x800 then [UInt8.ofNat (0xC0 + code / 64), UInt8.ofNat (0x80 + code % 64)]
  else if code < 0x10000 then
    [UInt8.ofNat (0xE0 + code / 4096), UInt8.ofNat (0x80 + code / 64 % 64), UInt8.ofNat (0x80 + code % 64)]
  else
    [UInt8.ofNat (0xF0 + code / 262144), UInt8.ofNat (0x80 + code / 4096 % 64),
      UInt8.ofNat (0x80 + code / 64 % 64), UInt8.ofNat (0x80 + code % 64)]

private theorem ofNat_toNat {n : Nat} (h : n < 256) : (UInt8.ofNat n).toNat = n := by
  rw [UInt8.toNat_ofNat', Nat.mod_eq_of_lt h]

private theorem utf8Tail_ofNat {n : Nat} (h : n < 64) : utf8Tail (UInt8.ofNat (0x80 + n)) = true := by
  rw [utf8Tail, Bool.and_eq_true, decide_eq_true_eq, decide_eq_true_eq, UInt8.le_iff_toNat_le,
    UInt8.le_iff_toNat_le, ofNat_toNat (by omega)]
  simp only [UInt8.toNat_ofNat]
  omega

theorem utf8Char_utf8OfCode {code : Nat} (h : isScalarValue code = true) : utf8Char (utf8OfCode code) = true := by
  rw [isScalarValue, Bool.or_eq_true, Bool.and_eq_true, decide_eq_true_eq, decide_eq_true_eq, decide_eq_true_eq] at h
  have hmod (n : Nat) : n % 64 < 64 := Nat.mod_lt _ (by decide)
  rw [utf8OfCode]
  split
  · simp only [utf8Char, decide_eq_true_eq, UInt8.lt_iff_toNat_lt, ofNat_toNat (show code < 256 by omega),
      UInt8.toNat_ofNat]
    omega
  split
  · simp only [utf8Char, utf8Tail_ofNat (hmod code), Bool.and_true, Bool.and_eq_true, decide_eq_true_eq,
      UInt8.le_iff_toNat_le, ofNat_toNat (show 0xC0 + code / 64 < 256 by omega), UInt8.toNat_ofNat]
    omega
  split
  · simp only [utf8Char, utf8Second3, utf8Tail_ofNat (hmod code), utf8Tail_ofNat (hmod (code / 64)),
      Bool.and_true, Bool.or_eq_true, Bool.and_eq_true, beq_iff_eq, decide_eq_true_eq,
      UInt8.le_iff_toNat_le, ← UInt8.toNat_inj, ofNat_toNat (show 0xE0 + code / 4096 < 256 by omega),
      ofNat_toNat (show 0x80 + code / 64 % 64 < 256 by omega), UInt8.toNat_ofNat]
    omega
  · simp only [utf8Char, utf8Second4, utf8Tail_ofNat (hmod code), utf8Tail_ofNat (hmod (code / 64)),
      utf8Tail_ofNat (hmod (code / 4096)), Bool.and_true, Bool.or_eq_true, Bool.and_eq_true, beq_iff_eq,
      decide_eq_true_eq, UInt8.le_iff_toNat_le, ← UInt8.toNat_inj,
      ofNat_toNat (show 0xF0 + code / 262144 < 256 by omega),
      ofNat_toNat (show 0x80 + code / 4096 % 64 < 256 by omega), UInt8.toNat_ofNat]
    omega

theorem validUtf8_utf8OfCode {code : Nat} (h : isScalarValue code = true) : validUtf8 (utf8OfCode code) = true := by
  rw [← append_nil (utf8OfCode code), validUtf8_char_append (utf8Char_utf8OfCode h)]
  rfl

end Lib
