import InfinityDB.Lib.Swar

/-!
# Scanning numbers by words

Where a run of digits ends, and its value, eight bytes at a time.
-/

namespace InfinityDB.Json

open Lib List

def digitRunLen (w : Nat) : Nat :=
  let lo := 0x0101010101010101
  let v := w ^^^ (lo * 0x30)
  let nondigit := ((v + lo * 0x76) % 2 ^ 64 ||| v) &&& (lo * 0x80)
  if nondigit = 0 then 8 else trailingZeros 64 nondigit / 8

def digitRunTail (input : List UInt8) (i : Nat) : Nat :=
  if h : i < input.length then
    if isAsciiDigit input[i] then digitRunTail input (i + 1) else i
  else i
termination_by input.length - i

def digitRunEnd (input : List UInt8) (i : Nat) : Nat :=
  if i + 8 ≤ input.length then
    let n := digitRunLen (leValue ((input.drop i).take 8))
    if n < 8 then i + n else digitRunEnd input (i + n)
  else digitRunTail input i
termination_by input.length - i

/-- One pass of the pairwise combine. -/
def combine (m k mask x : Nat) : Option Nat := do
  let sum ← addWord (wrappingMul x m) (x >>> k)
  return sum &&& mask

def octet (chunk : List UInt8) : Option Nat := do
  let raw := leValue chunk &&& 0x0F0F0F0F0F0F0F0F
  let pairs ← combine 10 8 0x00FF00FF00FF00FF raw
  let quads ← combine 100 16 0x0000FFFF0000FFFF pairs
  combine 10000 32 0xFFFFFFFF quads

def digitsUMax : Nat := 19

/-- The chunks of eight, then the remainder. -/
def accumulate : Nat → Nat → List UInt8 → Option Nat
  | 0, acc, rest => rest.foldlM (fun acc d => do addWord (← mulWord acc 10) (d.toNat &&& 0x0F)) acc
  | chunks + 1, acc, bytes => do
    let value ← octet (bytes.take 8)
    let acc ← addWord (← mulWord acc 100000000) value
    accumulate chunks acc (bytes.drop 8)

/-- Outside `none` is a panic, inside it the answer for a run that is too long. -/
def parseDigits (bytes : List UInt8) : Option (Option Nat) :=
  if digitsUMax < bytes.length then some none else some <$> accumulate (bytes.length / 8) 0 bytes

theorem digitRunLen_eq {word : List UInt8} (h : word.length = 8) :
    digitRunLen (leValue word) = (word.takeWhile isAsciiDigit).length := by
  have hvalue : ∀ b < 2 ^ 8, 48 ≤ b → b ≤ 57 → b ^^^ 48 = b - 48 := by decide +kernel
  have habove : ∀ b < 2 ^ 8, b < 48 ∨ 57 < b → 10 ≤ b ^^^ 48 := by decide +kernel
  have hrun := firstFlag_run (f := fun n w => w ^^^ broadcast 0x30 n) (by
      intro n b w hb
      rw [isAsciiDigit_iff] at hb
      rw [broadcast, ← hvalue _ b.toNat_lt hb.1 hb.2]
      exact xor_split b.toNat_lt (by decide))
    (by
      intro n b w hb
      have hlow : b.toNat ^^^ 48 < 2 ^ 8 := Nat.xor_lt_two_pow b.toNat_lt (by decide)
      have hlane := habove _ b.toNat_lt (lt_or_lt_of_not_digit hb)
      rw [broadcast]
      change 10 ≤ (b.toNat + 2 ^ 8 * w ^^^ 48 + 2 ^ 8 * broadcast 48 n) % 2 ^ 8
      rw [xor_split b.toNat_lt (by decide), Nat.add_mul_mod_self_left, Nat.mod_eq_of_lt hlow]
      exact hlane)
    word
  rw [h] at hrun
  exact hrun

theorem digitRunTail_eq (input : List UInt8) (i : Nat) :
    digitRunTail input i = i + ((input.drop i).takeWhile isAsciiDigit).length := by
  fun_induction digitRunTail input i with
  | case1 i hi hdigit ih =>
    rw [ih, drop_eq_getElem_cons hi, takeWhile_cons_of_pos hdigit, length_cons]
    omega
  | case2 i hi hdigit =>
    rw [drop_eq_getElem_cons hi, takeWhile_cons_of_neg hdigit]
    rfl
  | case3 i hi =>
    rw [drop_eq_nil_of_le (by omega)]
    rfl

theorem digitRunEnd_eq (input : List UInt8) (i : Nat) :
    digitRunEnd input i = i + ((input.drop i).takeWhile isAsciiDigit).length := by
  fun_induction digitRunEnd input i with
  | case1 i hi n hn =>
    have hword : ((input.drop i).take 8).length = 8 := by
      rw [length_take, length_drop]
      omega
    have hlen : n = _ := digitRunLen_eq hword
    rw [← take_append_drop 8 (input.drop i), takeWhile_append, if_neg (by omega), hlen]
  | case2 i hi n hn ih =>
    have hword : ((input.drop i).take 8).length = 8 := by
      rw [length_take, length_drop]
      omega
    have hlen : n = _ := digitRunLen_eq hword
    have hle := (takeWhile_sublist isAsciiDigit (l := (input.drop i).take 8)).length_le
    have h8 : n = 8 := by omega
    rw [ih, ← take_append_drop 8 (input.drop i), takeWhile_append, if_pos (by omega), length_append,
      hword, drop_drop, h8]
    omega
  | case3 i hi => exact digitRunTail_eq input i

/-- One pass on the lanes `xs`: the sum carries nothing from lane to lane, and what is kept of it are the lanes
taken in pairs. -/
structure InLanes (m k mask : Nat) (xs : List Nat) : Prop where
  sum : addWord (wrappingMul (Nat.ofDigits (2 ^ k) xs) m) (Nat.ofDigits (2 ^ k) xs >>> k) =
    some (Nat.ofDigits (2 ^ k) (slide m xs))
  lane : ∀ lane ∈ slide m xs, lane < 2 ^ k
  combine : combine m k mask (Nat.ofDigits (2 ^ k) xs) = some (Nat.ofDigits (2 ^ (2 * k)) (pairs m xs))

private theorem combine_lanes {m k n top : Nat} {xs : List Nat} (h : ∀ x ∈ xs, x ≤ top) (htop : (m + 1) * top < 2 ^ k)
    (hlen : xs.length = 2 * n) (hk : k * (2 * n) = 64) : InLanes m k (evenMask k n) xs := by
  have hlane : ∀ lane ∈ slide m xs, lane < 2 ^ k := fun lane hmem => (slide_le h lane hmem).trans_lt htop
  have hslide : (slide m xs).length = 2 * n := by
    rw [← hlen]
    clear h hlen hlane
    induction xs with
    | nil => rfl
    | cons a rest ih => rw [slide, length_cons, length_cons, ih]
  have hword := ofDigits_lt_word hlane (hslide ▸ hk)
  have heq := ofDigits_slide (m := m) (lt_of_forall_le h htop)
  have hsum : addWord (wrappingMul (Nat.ofDigits (2 ^ k) xs) m) (Nat.ofDigits (2 ^ k) xs >>> k) =
      some (Nat.ofDigits (2 ^ k) (slide m xs)) := by
    have hmul : Nat.ofDigits (2 ^ k) xs * m < 2 ^ 64 := (Nat.le_add_right _ _).trans_lt (heq ▸ hword)
    rw [wrappingMul, Nat.mod_eq_of_lt hmul, Nat.shiftRight_eq_div_pow, addWord, heq, if_pos hword]
  refine ⟨hsum, hlane, ?_⟩
  rw [Json.combine, hsum, option_some_bind, and_evenMask hlane hslide.le, evens_slide]
  rfl

/-- The digits the passes see, whatever the bytes are. -/
def nibbles (bytes : List UInt8) : List Nat := bytes.map fun b => b.toNat &&& 0x0F

private theorem leValue_nibbles (bytes : List UInt8) :
    leValue bytes &&& broadcast 0x0F bytes.length = Nat.ofDigits (2 ^ 8) (nibbles bytes) := by
  induction bytes with
  | nil => rfl
  | cons b rest ih =>
    rw [nibbles, length_cons, map_cons, Nat.ofDigits_cons, ← nibbles, ← ih]
    exact and_split b.toNat_lt (by decide)

theorem nibble_le (bytes : List UInt8) : ∀ d ∈ nibbles bytes, d ≤ 15 := by
  intro d hd
  obtain ⟨b, hb, rfl⟩ := mem_map.mp hd
  exact Nat.and_le_right

structure OctetLanes (chunk : List UInt8) : Prop where
  raw : leValue chunk &&& 0x0F0F0F0F0F0F0F0F = Nat.ofDigits (2 ^ 8) (nibbles chunk)
  pairs : InLanes 10 8 0x00FF00FF00FF00FF (nibbles chunk)
  quads : InLanes 100 16 0x0000FFFF0000FFFF (Lib.pairs 10 (nibbles chunk))
  octet : InLanes 10000 32 0xFFFFFFFF (Lib.pairs 100 (Lib.pairs 10 (nibbles chunk)))

theorem octet_lanes {chunk : List UInt8} (hlen : chunk.length = 8) : OctetLanes chunk := by
  have hraw := leValue_nibbles chunk
  have hpairs := pairs_le (m := 10) (nibble_le chunk)
  have hquads := pairs_le (m := 100) hpairs
  rw [hlen] at hraw
  match chunk, hlen with
  | [_, _, _, _, _, _, _, _], _ =>
    exact ⟨hraw, combine_lanes (n := 4) (nibble_le _) (by decide) rfl rfl,
      combine_lanes (n := 2) hpairs (by decide) rfl rfl, combine_lanes (n := 1) hquads (by decide) rfl rfl⟩

theorem octet_eq {chunk : List UInt8} (hlen : chunk.length = 8) (acc : Nat) :
    ∃ value, octet chunk = some value ∧ acc * 10 ^ 8 + value = decimalFrom acc (nibbles chunk) := by
  have hlanes := octet_lanes hlen
  obtain ⟨value, hpairs, hvalue⟩ := pairs_decimal ((length_map _).trans hlen) acc
  have hone : Nat.ofDigits (2 ^ (2 * 32)) [value] = value := Nat.ofDigits_singleton
  refine ⟨value, ?_, hvalue⟩
  rw [octet, hlanes.raw, hlanes.pairs.combine, option_some_bind, hlanes.quads.combine, option_some_bind,
    hlanes.octet.combine, nibbles, hpairs, hone]

/-- Room for `n` nibbles read as decimal digits. -/
def Fits (acc n : Nat) : Prop := 9 * acc + 15 ≤ 15 * 10 ^ n

theorem Fits.lt_word {acc n : Nat} (h : Fits acc n) (hn : n ≤ 19) : acc < 2 ^ 64 := by
  have hpow : 10 ^ n ≤ 10 ^ 19 := Nat.pow_le_pow_right (by decide) hn
  rw [Fits] at h
  omega

theorem Fits.decimalFrom {acc n : Nat} {ds : List Nat} (h : Fits acc n) (hds : ∀ d ∈ ds, d ≤ 15) :
    Fits (decimalFrom acc ds) (n + ds.length) := by
  induction ds generalizing acc n with
  | nil => exact h
  | cons d rest ih =>
    have hd := hds d mem_cons_self
    have hnext : Fits (acc * 10 + d) (n + 1) := by
      rw [Fits, pow_succ] at *
      omega
    have := ih hnext (forall_mem_of_forall_mem_cons hds)
    rwa [length_cons, add_comm rest.length, ← add_assoc]

theorem remainder_eq {bytes : List UInt8} {acc n : Nat} (h : Fits acc n) (hn : n + bytes.length ≤ 19) :
    accumulate 0 acc bytes = some (decimalFrom acc (nibbles bytes)) := by
  induction bytes generalizing acc n with
  | nil => rfl
  | cons b rest ih =>
    rw [length_cons] at hn
    have hnext : Fits (acc * 10 + (b.toNat &&& 0x0F)) (n + 1) := h.decimalFrom (nibble_le [b])
    have hword := hnext.lt_word (by omega)
    have hrest := ih hnext (by omega)
    rw [accumulate] at hrest ⊢
    rw [foldlM_cons, mulWord, if_pos (by omega), option_some_bind, addWord, if_pos hword, option_some_bind, hrest]
    rfl

theorem accumulate_eq {bytes : List UInt8} {acc n chunks : Nat} (h : Fits acc n) (hn : n + bytes.length ≤ 19)
    (hchunks : 8 * chunks ≤ bytes.length) : accumulate chunks acc bytes = some (decimalFrom acc (nibbles bytes)) := by
  induction chunks generalizing bytes acc n with
  | zero => exact remainder_eq h hn
  | succ chunks ih =>
    have hlen : (bytes.take 8).length = 8 := by
      rw [length_take]
      omega
    obtain ⟨value, hoctet, hvalue⟩ := octet_eq hlen acc
    rw [show 10 ^ 8 = 100000000 from rfl] at hvalue
    have hnext := h.decimalFrom (nibble_le (bytes.take 8))
    rw [← hvalue, nibbles, length_map, hlen] at hnext
    have hword := hnext.lt_word (by omega)
    have hmul := (Nat.le_add_right _ value).trans_lt hword
    have hrest : accumulate chunks (acc * 100000000 + value) (bytes.drop 8) = _ :=
      ih hnext (by rw [length_drop]; omega) (by rw [length_drop]; omega)
    rw [accumulate, hoctet, option_some_bind, mulWord, if_pos hmul, option_some_bind, addWord, if_pos hword,
      option_some_bind, hrest, hvalue, decimalFrom, decimalFrom, decimalFrom, ← foldl_append, nibbles, nibbles,
      ← map_append, take_append_drop, nibbles]

/-- The run ends at the first byte that is not a digit, every lane of the passes holds what is added into it, and a
run of up to nineteen digits gives its value. -/
theorem scan_exact (input : List UInt8) :
    (∀ i, i ≤ digitRunEnd input i ∧ (i ≤ input.length → digitRunEnd input i ≤ input.length) ∧
      (∀ j, i ≤ j → j < digitRunEnd input i → ∃ b, input[j]? = some b ∧ isAsciiDigit b = true) ∧
      ∀ b, input[digitRunEnd input i]? = some b → isAsciiDigit b = false) ∧
    (∀ chunk : List UInt8, chunk.length = 8 → OctetLanes chunk) ∧
    (input.length ≤ 19 → (∀ b ∈ input, isAsciiDigit b = true) →
      parseDigits input = some (some (decimalFrom 0 (input.map fun b => b.toNat - 48)))) := by
  refine ⟨fun i => ?_, fun chunk => octet_lanes, fun hlen hdigits => ?_⟩
  · rw [digitRunEnd_eq]
    have hle := (takeWhile_sublist isAsciiDigit (l := input.drop i)).length_le
    rw [length_drop] at hle
    have hsplit := (takeWhile_append_dropWhile (p := isAsciiDigit) (l := input.drop i)).symm
    refine ⟨by omega, by omega, fun j hij hj => ?_, fun b hb => ?_⟩
    · obtain ⟨past, rfl⟩ := Nat.exists_eq_add_of_le hij
      have hrun := Nat.lt_of_add_lt_add_left hj
      refine ⟨_, ?_, mem_takeWhile_imp (getElem_mem hrun)⟩
      rw [← getElem?_drop]
      exact (congrArg (·[past]?) hsplit).trans ((getElem?_append_left hrun).trans (getElem?_eq_getElem hrun))
    · rw [← add_zero (i + _), ← getElem?_drop, drop_add_of_drop hsplit, ← head?_eq_getElem?] at hb
      simpa [hb] using head?_dropWhile_not isAsciiDigit (input.drop i)
  · have hsame : nibbles input = input.map fun b => b.toNat - 48 := by
      apply map_congr_left
      intro b hb
      have hdigit := isAsciiDigit_iff.mp (hdigits b hb)
      have hnibble : ∀ c < 2 ^ 8, 48 ≤ c → c ≤ 57 → c &&& 0x0F = c - 48 := by decide +kernel
      exact hnibble _ b.toNat_lt hdigit.1 hdigit.2
    have hzero : Fits 0 0 := Nat.le_refl 15
    rw [parseDigits, if_neg (by rw [digitsUMax]; omega), accumulate_eq hzero (by omega) (by omega), hsame]
    rfl

theorem scan_exact_ten : OctetLanes [49, 50, 51, 52, 53, 54, 55, 56] ∧
    parseDigits [49, 50, 51, 52, 53, 54, 55, 56, 57, 48] = some (some 1234567890) :=
  ⟨(scan_exact []).2.1 _ rfl, (scan_exact [49, 50, 51, 52, 53, 54, 55, 56, 57, 48]).2.2 (by decide) (by decide +kernel)⟩

end InfinityDB.Json
