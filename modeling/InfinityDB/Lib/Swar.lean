import InfinityDB.Lib.Cursor

/-!
# Arithmetic on the lanes of a word

A word is read as lanes of `k` bits, the lowest first: `Nat.ofDigits (2 ^ k)`. Two passes add
neighbouring lanes with a weight into lanes of twice the width, and a third finds the first lane
that is above nine. As long as no lane overflows, each does to the list of lanes what it says.
-/

namespace Lib

open List

variable {k m n : Nat}

section Split

variable {op : Nat → Nat → Nat} {a b x y : Nat}

theorem op_split (hmod : op (a + 2 ^ k * x) (b + 2 ^ k * y) % 2 ^ k =
      op ((a + 2 ^ k * x) % 2 ^ k) ((b + 2 ^ k * y) % 2 ^ k)) (hdiv : op (a + 2 ^ k * x) (b + 2 ^ k * y) / 2 ^ k =
      op ((a + 2 ^ k * x) / 2 ^ k) ((b + 2 ^ k * y) / 2 ^ k)) (ha : a < 2 ^ k) (hb : b < 2 ^ k) :
    op (a + 2 ^ k * x) (b + 2 ^ k * y) = op a b + 2 ^ k * op x y := by
  have hlow : ∀ {c z}, c < 2 ^ k → (c + 2 ^ k * z) % 2 ^ k = c := fun hc => by
    rw [Nat.add_mul_mod_self_left, Nat.mod_eq_of_lt hc]
  have hhigh : ∀ {c z}, c < 2 ^ k → (c + 2 ^ k * z) / 2 ^ k = z := fun hc => by
    rw [Nat.add_mul_div_left _ _ (Nat.two_pow_pos k), Nat.div_eq_of_lt hc, zero_add]
  rw [← Nat.mod_add_div (op _ _) (2 ^ k), hmod, hdiv, hlow ha, hlow hb, hhigh ha, hhigh hb]

theorem and_split (ha : a < 2 ^ k) (hb : b < 2 ^ k) :
    (a + 2 ^ k * x) &&& (b + 2 ^ k * y) = (a &&& b) + 2 ^ k * (x &&& y) :=
  op_split Nat.and_mod_two_pow Nat.and_div_two_pow ha hb

theorem or_split (ha : a < 2 ^ k) (hb : b < 2 ^ k) :
    (a + 2 ^ k * x) ||| (b + 2 ^ k * y) = (a ||| b) + 2 ^ k * (x ||| y) :=
  op_split Nat.or_mod_two_pow Nat.or_div_two_pow ha hb

theorem xor_split (ha : a < 2 ^ k) (hb : b < 2 ^ k) :
    (a + 2 ^ k * x) ^^^ (b + 2 ^ k * y) = (a ^^^ b) + 2 ^ k * (x ^^^ y) :=
  op_split Nat.xor_mod_two_pow Nat.xor_div_two_pow ha hb

end Split

/-- `n` lanes of ones, each followed by a lane of zeros. -/
def evenMask (k : Nat) : Nat → Nat
  | 0 => 0
  | n + 1 => 2 ^ k - 1 + 2 ^ k * (0 + 2 ^ k * evenMask k n)

def evens : List Nat → List Nat
  | a :: _ :: rest => a :: evens rest
  | [a] => [a]
  | [] => []

/-- Each lane with the one after it. -/
def slide (m : Nat) : List Nat → List Nat
  | a :: rest => (m * a + rest.headD 0) :: slide m rest
  | [] => []

/-- Each even lane with the odd one after it. -/
def pairs (m : Nat) : List Nat → List Nat
  | a :: b :: rest => (m * a + b) :: pairs m rest
  | [a] => [m * a]
  | [] => []

theorem evens_slide (m : Nat) (xs : List Nat) : evens (slide m xs) = pairs m xs := by
  fun_induction pairs m xs with
  | case1 a b rest ih => rw [slide, slide, evens, ih, headD_cons]
  | case2 a => rfl
  | case3 => rfl

theorem evens_cons (a : Nat) (rest : List Nat) : evens (a :: rest) = a :: evens rest.tail := by
  cases rest <;> rfl

theorem ofDigits_div {xs : List Nat} (h : ∀ x ∈ xs, x < 2 ^ k) :
    Nat.ofDigits (2 ^ k) xs / 2 ^ k = Nat.ofDigits (2 ^ k) xs.tail := by
  cases xs with
  | nil => exact Nat.zero_div _
  | cons a rest =>
    rw [Nat.ofDigits_cons, Nat.add_mul_div_left _ _ (Nat.two_pow_pos k), Nat.div_eq_of_lt
      (h a mem_cons_self), zero_add, tail_cons]

theorem and_evenMask {xs : List Nat} (h : ∀ x ∈ xs, x < 2 ^ k) (hn : xs.length ≤ 2 * n) :
    Nat.ofDigits (2 ^ k) xs &&& evenMask k n = Nat.ofDigits (2 ^ (2 * k)) (evens xs) := by
  have hpos := Nat.two_pow_pos k
  induction n generalizing xs with
  | zero =>
    obtain rfl := length_eq_zero_iff.mp (Nat.le_zero.mp hn)
    exact Nat.zero_and _
  | succ n ih =>
    cases xs with
    | nil => exact Nat.zero_and _
    | cons a rest =>
      have ha := h a mem_cons_self
      have hrest := forall_mem_of_forall_mem_cons h
      have htail := ih (fun x hx => hrest x (mem_of_mem_tail hx)) (by rw [length_tail]; rw [length_cons] at hn; omega)
      -- the odd lane is whatever the rest has lowest
      have hodd : Nat.ofDigits (2 ^ k) rest &&& (0 + 2 ^ k * evenMask k n) =
          0 + 2 ^ k * (Nat.ofDigits (2 ^ k) rest.tail &&& evenMask k n) := by
        have := and_split (y := evenMask k n) (x := Nat.ofDigits (2 ^ k) rest / 2 ^ k)
          (Nat.mod_lt (Nat.ofDigits (2 ^ k) rest) hpos) hpos
        rwa [Nat.mod_add_div, Nat.and_zero, ofDigits_div hrest] at this
      rw [evens_cons, Nat.ofDigits_cons, Nat.ofDigits_cons, evenMask,
        and_split ha (Nat.sub_lt hpos Nat.one_pos), Nat.and_two_pow_sub_one_eq_mod, Nat.mod_eq_of_lt ha, hodd, htail]
      ring

theorem lt_of_forall_le {xs : List Nat} {top : Nat} (h : ∀ x ∈ xs, x ≤ top) (htop : (m + 1) * top < 2 ^ k) :
    ∀ x ∈ xs, x < 2 ^ k := by
  intro x hx
  have hle : x ≤ (m + 1) * top := (h x hx).trans (Nat.le_mul_of_pos_left _ m.succ_pos)
  omega

theorem slide_le {xs : List Nat} {top : Nat} (h : ∀ x ∈ xs, x ≤ top) : ∀ x ∈ slide m xs, x ≤ (m + 1) * top := by
  induction xs with
  | nil => exact fun x hx => absurd hx not_mem_nil
  | cons a rest ih =>
    have hrest := forall_mem_of_forall_mem_cons h
    have hnext : rest.headD 0 ≤ top := by
      cases rest with
      | nil => exact zero_le
      | cons b rest => exact hrest b mem_cons_self
    have ha : m * a ≤ m * top := Nat.mul_le_mul_left m (h a mem_cons_self)
    rw [slide, forall_mem_cons]
    exact ⟨by rw [Nat.succ_mul]; omega, ih hrest⟩

/-- The weighted lanes and the lanes shifted down by one, added. -/
theorem ofDigits_slide {xs : List Nat} (h : ∀ x ∈ xs, x < 2 ^ k) :
    Nat.ofDigits (2 ^ k) xs * m + Nat.ofDigits (2 ^ k) xs / 2 ^ k = Nat.ofDigits (2 ^ k) (slide m xs) := by
  induction xs with
  | nil => simp [slide]
  | cons a rest ih =>
    have hrest := forall_mem_of_forall_mem_cons h
    have hlow : rest.headD 0 + 2 ^ k * (Nat.ofDigits (2 ^ k) rest / 2 ^ k) = Nat.ofDigits (2 ^ k) rest := by
      rw [ofDigits_div hrest]
      cases rest <;> simp [Nat.ofDigits_cons]
    rw [ofDigits_div h, tail_cons, slide, Nat.ofDigits_cons, Nat.ofDigits_cons, ← ih hrest]
    nth_rewrite 2 [← hlow]
    ring

theorem pairs_le {xs : List Nat} {top : Nat} (h : ∀ x ∈ xs, x ≤ top) : ∀ x ∈ pairs m xs, x ≤ (m + 1) * top := by
  rw [← evens_slide]
  intro x hx
  refine slide_le h x ?_
  generalize slide m xs = ys at hx
  fun_induction evens ys with
  | case1 a b rest ih => grind
  | case2 a => exact hx
  | case3 => exact hx

/-- The number with these decimal digits after those of `acc`, the first the highest. -/
def decimalFrom (acc : Nat) (ds : List Nat) : Nat := ds.foldl (fun acc d => acc * 10 + d) acc

/-- Three passes read eight digits. -/
theorem pairs_decimal {ds : List Nat} (h : ds.length = 8) (acc : Nat) :
    ∃ value, pairs 10000 (pairs 100 (pairs 10 ds)) = [value] ∧ acc * 10 ^ 8 + value = decimalFrom acc ds := by
  match ds, h with
  | [a, b, c, d, e, f, g, i], _ =>
    refine ⟨_, rfl, ?_⟩
    simp only [decimalFrom, List.foldl]
    ring

/-- A sum that is not wrapping: an overflow is a panic. -/
def addWord (a b : Nat) : Option Nat := if a + b < 2 ^ 64 then some (a + b) else none

def mulWord (a b : Nat) : Option Nat := if a * b < 2 ^ 64 then some (a * b) else none

def wrappingMul (a b : Nat) : Nat := a * b % 2 ^ 64

theorem ofDigits_lt_word {xs : List Nat} (h : ∀ x ∈ xs, x < 2 ^ k) (hk : k * xs.length = 64) :
    Nat.ofDigits (2 ^ k) xs < 2 ^ 64 := by
  have hone : 1 < 2 ^ k := Nat.one_lt_two_pow (by rintro rfl; omega)
  have := Nat.ofDigits_lt_base_pow_length hone h
  rwa [← pow_mul, hk] at this

/-- `n` lanes of eight bits, each holding `b`. -/
def broadcast (b : Nat) : Nat → Nat
  | 0 => 0
  | n + 1 => b + 2 ^ 8 * broadcast b n

/-- The zero bits below the lowest one of a word of `bits`. -/
def trailingZeros : Nat → Nat → Nat
  | 0, _ => 0
  | bits + 1, w => if w % 2 = 1 then 0 else trailingZeros bits (w / 2) + 1

/-- The high bit of every lane above nine. A carry out of such a lane may flag the lanes after it. -/
def aboveNine (n v : Nat) : Nat := ((v + broadcast 0x76 n) % 2 ^ (8 * n) ||| v) &&& broadcast 0x80 n

def firstFlag (n flags : Nat) : Nat := if flags = 0 then n else trailingZeros (8 * n) flags / 8

theorem mod_lane {a : Nat} (ha : a < 2 ^ 8) (x n : Nat) :
    (a + 2 ^ 8 * x) % 2 ^ (8 * (n + 1)) = a + 2 ^ 8 * (x % 2 ^ (8 * n)) := by
  rw [Nat.mul_succ, add_comm (8 * n), pow_add, Nat.mod_mul, Nat.add_mul_mod_self_left, Nat.mod_eq_of_lt ha,
    Nat.add_mul_div_left _ _ (by decide), Nat.div_eq_of_lt ha, zero_add]

theorem aboveNine_digit {d : Nat} (hd : d ≤ 9) (n v : Nat) :
    aboveNine (n + 1) (d + 2 ^ 8 * v) = 2 ^ 8 * aboveNine n v := by
  -- the biased lane stays below 128: nothing is carried
  have hsum : d + 2 ^ 8 * v + broadcast 0x76 (n + 1) = (d + 0x76) + 2 ^ 8 * (v + broadcast 0x76 n) := by
    rw [broadcast]
    ring
  have hflag : (d + 0x76 ||| d) &&& 0x80 = 0 := by
    interval_cases d <;> rfl
  have hor : d + 0x76 ||| d < 2 ^ 8 := Nat.or_lt_two_pow (by omega) (by omega)
  rw [aboveNine, hsum, mod_lane (by omega), or_split (by omega) (by omega), broadcast, and_split hor (by decide),
    hflag, zero_add, aboveNine]

theorem aboveNine_other {v : Nat} (h : 10 ≤ v % 2 ^ 8) (n : Nat) : aboveNine (n + 1) v % 2 ^ 8 = 0x80 := by
  have hflag : ∀ d < 2 ^ 8, 10 ≤ d → ((d + 0x76) % 2 ^ 8 ||| d) &&& 0x80 = 0x80 := by
    decide +kernel
  have hdvd : 2 ^ 8 ∣ 2 ^ (8 * (n + 1)) := Nat.pow_dvd_pow 2 (by omega)
  have hsum : (v + broadcast 0x76 (n + 1)) % 2 ^ 8 = (v % 2 ^ 8 + 0x76) % 2 ^ 8 := by
    rw [broadcast]
    omega
  have hhigh : broadcast 0x80 (n + 1) % 2 ^ 8 = 0x80 := by
    rw [broadcast]
    omega
  rw [aboveNine, Nat.and_mod_two_pow, Nat.or_mod_two_pow, Nat.mod_mod_of_dvd _ hdvd, hsum, hhigh]
  exact hflag _ (Nat.mod_lt v (by decide)) h

theorem trailingZeros_double (bits w : Nat) : trailingZeros (bits + 1) (2 * w) = trailingZeros bits w + 1 := by
  rw [trailingZeros, if_neg (by omega), Nat.mul_div_cancel_left w (by decide)]

theorem firstFlag_lane (n flags : Nat) : firstFlag (n + 1) (2 ^ 8 * flags) = firstFlag n flags + 1 := by
  have hlane : trailingZeros (8 * (n + 1)) (2 ^ 8 * flags) = trailingZeros (8 * n) flags + 8 := by
    rw [show 2 ^ 8 * flags = 2 * (2 * (2 * (2 * (2 * (2 * (2 * (2 * flags))))))) by ring]
    exact (by simp only [Nat.mul_succ, trailingZeros_double])
  rw [firstFlag, firstFlag, hlane, Nat.add_div_right _ (by decide)]
  split <;> simp_all

theorem firstFlag_first {flags : Nat} (h : flags % 2 ^ 8 = 0x80) (n : Nat) : firstFlag (n + 1) flags = 0 := by
  have hbit : flags = 2 * (2 * (2 * (2 * (2 * (2 * (2 * (flags / 2 ^ 7))))))) := by omega
  have hone : trailingZeros (8 * n + 1) (flags / 2 ^ 7) = 0 := if_pos (by omega)
  have hseven : trailingZeros (8 * (n + 1)) flags = 7 := by
    rw [hbit]
    simp only [Nat.mul_succ, trailingZeros_double, hone]
  rw [firstFlag, if_neg (by omega), hseven]

def isAsciiDigit (b : UInt8) : Bool := 48 ≤ b.toNat && b.toNat ≤ 57

theorem isAsciiDigit_iff {b : UInt8} : isAsciiDigit b = true ↔ 48 ≤ b.toNat ∧ b.toNat ≤ 57 := by
  rw [isAsciiDigit, Bool.and_eq_true, decide_eq_true_eq, decide_eq_true_eq]

theorem lt_or_lt_of_not_digit {b : UInt8} (h : isAsciiDigit b = false) : b.toNat < 48 ∨ 57 < b.toNat := by
  rw [← Bool.not_eq_true, isAsciiDigit_iff] at h
  omega

section Run

variable {f : Nat → Nat → Nat} (hdigit : ∀ n (b : UInt8) w, isAsciiDigit b = true →
    f (n + 1) (b.toNat + 256 * w) = (b.toNat - 48) + 2 ^ 8 * f n w)

include hdigit

/-- A map of words that sends digits to their values and other bytes above nine, both up to the first of the others:
the first flag is where the run of digits ends. -/
theorem firstFlag_run (hother : ∀ n (b : UInt8) w, isAsciiDigit b = false →
      10 ≤ f (n + 1) (b.toNat + 256 * w) % 2 ^ 8) (bytes : List UInt8) :
    firstFlag bytes.length (aboveNine bytes.length (f bytes.length (leValue bytes))) =
      (bytes.takeWhile isAsciiDigit).length := by
  induction bytes with
  | nil => rw [length_nil, aboveNine, broadcast, broadcast, Nat.and_zero]; rfl
  | cons b rest ih =>
    rw [length_cons, leValue]
    cases hb : isAsciiDigit b with
    | false => rw [firstFlag_first (aboveNine_other (hother _ b _ hb) _), takeWhile_cons_of_neg (by simp [hb])]; rfl
    | true =>
      have hle := isAsciiDigit_iff.mp hb
      have hnine : b.toNat - 48 ≤ 9 := by omega
      rw [hdigit _ b _ hb, aboveNine_digit hnine, firstFlag_lane, ih, takeWhile_cons_of_pos hb, length_cons]

end Run

end Lib
