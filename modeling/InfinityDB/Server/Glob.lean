import Mathlib

/-!
# Glob matching

The matcher walks the pattern and the string once and remembers the last star only. A position is what is left from
it on.
-/

namespace InfinityDB.Server

open List

def toAsciiLowercase (b : UInt8) : UInt8 := if 'A'.toUInt8 ≤ b ∧ b ≤ 'Z'.toUInt8 then b + 32 else b

def eq (a b : UInt8) (nocase : Bool) : Bool := if nocase then toAsciiLowercase a == toAsciiLowercase b else a == b

/-- A range of a class; a reversed one is turned round before its ends are lowered. -/
def inRange (lo hi c : UInt8) (nocase : Bool) : Bool :=
  let (a, b) := if lo ≤ hi then (lo, hi) else (hi, lo)
  let probe := if nocase then toAsciiLowercase c else c
  let (a, b) := if nocase then (toAsciiLowercase a, toAsciiLowercase b) else (a, b)
  a ≤ probe && probe ≤ b

/-- The loop over the members of a class, from the byte after the bracket or the caret. -/
def classLoop (c : UInt8) (nocase : Bool) : List UInt8 → Bool → Bool × List UInt8
  | [], hit => (hit, [])
  | [b], hit => if b = ']'.toUInt8 then (hit, []) else (hit || eq b c nocase, [])
  | [b, x], hit =>
    if b = ']'.toUInt8 then (hit, [x])
    else if b = '\\'.toUInt8 then (hit || eq x c nocase, [])
    else classLoop c nocase [x] (hit || eq b c nocase)
  | b :: x :: y :: rest, hit =>
    if b = ']'.toUInt8 then (hit, x :: y :: rest)
    else if b = '\\'.toUInt8 then classLoop c nocase (y :: rest) (hit || eq x c nocase)
    else if x = '-'.toUInt8 then classLoop c nocase rest (hit || inRange b y c nocase)
    else classLoop c nocase (x :: y :: rest) (hit || eq b c nocase)

/-- A class, given what follows its bracket, and the pattern after it. -/
def classMatch (body : List UInt8) (c : UInt8) (nocase : Bool) : Bool × List UInt8 :=
  let negate := body.head? = some '^'.toUInt8
  let (hit, next) := classLoop c nocase (if negate then body.tail else body) false
  (hit != negate, next)

inductive Advance where
  | star (p : List UInt8)
  | matched (p : List UInt8)
  | mismatch

def skipStars (p : List UInt8) : List UInt8 := p.dropWhile (· == '*'.toUInt8)

def advance (nocase : Bool) (p : List UInt8) (c : UInt8) : Advance :=
  match p with
  | [] => .mismatch
  | b :: rest =>
    if b = '*'.toUInt8 then .star (skipStars rest)
    else if b = '?'.toUInt8 then .matched rest
    else if b = '['.toUInt8 then
      let (hit, next) := classMatch rest c nocase
      if hit then .matched next else .mismatch
    else if b = '\\'.toUInt8 ∧ rest ≠ [] then
      if eq (rest.headD 0) c nocase then .matched rest.tail else .mismatch
    else if eq b c nocase then .matched rest else .mismatch

/-- The two loops; `none` when the turns run out. -/
def globLoop (nocase : Bool) : Nat → List UInt8 → List UInt8 → Option (List UInt8 × List UInt8) → Option Bool
  | 0, _, _, _ => none
  | _ + 1, p, [], _ => some (skipStars p).isEmpty
  | turns + 1, p, c :: s, star =>
    match advance nocase p c with
    | .star p => globLoop nocase turns p (c :: s) (some (p, c :: s))
    | .matched p => globLoop nocase turns p s star
    | .mismatch =>
      match star with
      | none => some false
      | some (starP, starS) => globLoop nocase turns starP starS.tail (some (starP, starS.tail))

def globMatch (turns : Nat) (pattern string : List UInt8) (nocase : Bool) : Option Bool :=
  globLoop nocase turns pattern string none

theorem classLoop_length (c : UInt8) (nocase hit : Bool) (p : List UInt8) :
    (classLoop c nocase p hit).2.length ≤ p.length := by
  fun_induction classLoop c nocase p hit <;> grind

theorem classMatch_length (body : List UInt8) (c : UInt8) (nocase : Bool) :
    (classMatch body c nocase).2.length ≤ body.length := by
  apply (classLoop_length c nocase false _).trans
  split
  · rw [length_tail]
    exact Nat.sub_le _ _
  · exact Nat.le_refl _

/-- The recursive reference, for both ways to compare bytes. -/
def reference (nocase : Bool) (p s : List UInt8) : Bool :=
  match p, s with
  | [], s => s.isEmpty
  | b :: rest, [] => if b = '*'.toUInt8 then reference nocase rest [] else false
  | b :: rest, c :: s =>
    if b = '*'.toUInt8 then reference nocase rest (c :: s) || reference nocase (b :: rest) s
    else if b = '?'.toUInt8 then reference nocase rest s
    else if b = '['.toUInt8 then
      (classMatch rest c nocase).1 && reference nocase (classMatch rest c nocase).2 s
    else if b = '\\'.toUInt8 ∧ rest ≠ [] then eq (rest.headD 0) c nocase && reference nocase rest.tail s
    else eq b c nocase && reference nocase rest s
termination_by p.length + s.length
decreasing_by
  all_goals simp only [length_cons, length_tail]
  all_goals first
    | omega
    | exact Nat.add_lt_add_of_le_of_lt ((classMatch_length _ _ _).trans (Nat.le_succ _)) (Nat.lt_succ_self _)

variable {nocase : Bool} {p q rest s t : List UInt8}

private theorem classLoop_next (c d : UInt8) (hit hit' : Bool) (p : List UInt8) :
    (classLoop c nocase p hit).2 = (classLoop d nocase p hit').2 := by
  fun_induction classLoop c nocase p hit generalizing hit' <;> grind [classLoop]

/-- An element that takes one byte: which bytes, and the pattern after it. -/
structure Single (nocase : Bool) (p : List UInt8) (test : UInt8 → Bool) (rest : List UInt8) : Prop where
  advance : ∀ c, advance nocase p c = if test c then .matched rest else .mismatch
  reference : ∀ c s, reference nocase p (c :: s) = (test c && reference nocase rest s)
  reference_nil : Server.reference nocase p [] = false
  length : rest.length ≤ p.length

private theorem single_of_ne_star {b : UInt8} (nocase : Bool) (hb : b ≠ '*'.toUInt8) (rest : List UInt8) :
    ∃ test next, Single nocase (b :: rest) test next := by
  have hnil : reference nocase (b :: rest) [] = false := by
    rw [reference, if_neg hb]
  by_cases hany : b = '?'.toUInt8
  · refine ⟨fun _ => true, rest, fun c => ?_, fun c s => ?_, hnil, Nat.le_succ _⟩
    · rw [advance, if_neg hb, if_pos hany]
      rfl
    · rw [reference, if_neg hb, if_pos hany, Bool.true_and]
  by_cases hclass : b = '['.toUInt8
  · have hnext : ∀ c, (classMatch rest c nocase).2 = (classMatch rest 0 nocase).2 := fun c => classLoop_next c 0 _ _ _
    refine ⟨fun c => (classMatch rest c nocase).1, (classMatch rest 0 nocase).2, fun c => ?_, fun c s => ?_, hnil,
      (classMatch_length rest 0 nocase).trans (Nat.le_succ _)⟩
    · rw [advance, if_neg hb, if_neg hany, if_pos hclass, ← hnext c]
    · rw [reference, if_neg hb, if_neg hany, if_pos hclass, hnext c]
  by_cases hescape : b = '\\'.toUInt8 ∧ rest ≠ []
  · refine ⟨fun c => eq (rest.headD 0) c nocase, rest.tail, fun c => ?_, fun c s => ?_, hnil, ?_⟩
    · rw [advance, if_neg hb, if_neg hany, if_neg hclass, if_pos hescape]
    · rw [reference, if_neg hb, if_neg hany, if_neg hclass, if_pos hescape]
    · rw [length_tail, length_cons]
      omega
  · refine ⟨fun c => eq b c nocase, rest, fun c => ?_, fun c s => ?_, hnil, Nat.le_succ _⟩
    · rw [advance, if_neg hb, if_neg hany, if_neg hclass, if_neg hescape]
    · rw [reference, if_neg hb, if_neg hany, if_neg hclass, if_neg hescape]

/-- A star takes any substring. -/
theorem reference_star (p s : List UInt8) :
    reference nocase ('*'.toUInt8 :: p) s = true ↔ ∃ k ≤ s.length, reference nocase p (s.drop k) = true := by
  induction s with
  | nil =>
    rw [reference, if_pos rfl]
    exact ⟨fun h => ⟨0, Nat.le_refl 0, h⟩, fun ⟨k, _, h⟩ => drop_nil ▸ h⟩
  | cons c s ih =>
    rw [reference, if_pos rfl, Bool.or_eq_true, ih]
    constructor
    · rintro (h | ⟨k, hk, h⟩)
      · exact ⟨0, zero_le, h⟩
      · exact ⟨k + 1, Nat.succ_le_succ hk, h⟩
    · rintro ⟨k, hk, h⟩
      cases k with
      | zero => exact Or.inl h
      | succ k => exact Or.inr ⟨k, Nat.le_of_succ_le_succ hk, h⟩

/-- What a star takes may be longer. -/
theorem reference_star_drop {k : Nat} (h : reference nocase ('*'.toUInt8 :: p) (s.drop k) = true) :
    reference nocase ('*'.toUInt8 :: p) s = true := by
  obtain ⟨j, hj, href⟩ := (reference_star p _).mp h
  rw [drop_drop] at href
  rw [length_drop] at hj
  by_cases hk : k + j ≤ s.length
  · exact (reference_star p s).mpr ⟨k + j, hk, href⟩
  · rw [drop_of_length_le (by omega)] at href
    exact (reference_star p s).mpr ⟨s.length, Nat.le_refl _, drop_length ▸ href⟩

theorem skipStars_star (p : List UInt8) : skipStars ('*'.toUInt8 :: p) = skipStars p := rfl

theorem skipStars_cons {b : UInt8} (hb : b ≠ '*'.toUInt8) (p : List UInt8) : skipStars (b :: p) = b :: p :=
  dropWhile_cons_of_neg (by rw [beq_iff_eq]; exact hb)

private theorem reference_skipStars (p s : List UInt8) :
    reference nocase ('*'.toUInt8 :: skipStars p) s = reference nocase ('*'.toUInt8 :: p) s := by
  induction p with
  | nil => rfl
  | cons b p ih =>
    by_cases hb : b = '*'.toUInt8
    · subst hb
      rw [skipStars_star, ih, Bool.eq_iff_iff, reference_star ('*'.toUInt8 :: p)]
      constructor
      · intro h
        exact ⟨0, zero_le, h⟩
      · intro ⟨k, _, h⟩
        exact reference_star_drop h
    · rw [skipStars_cons hb]

private theorem reference_nil (p : List UInt8) : reference nocase p [] = (skipStars p).isEmpty := by
  induction p with
  | nil => rw [reference, skipStars, dropWhile_nil]
  | cons b p ih =>
    by_cases hb : b = '*'.toUInt8
    · subst hb
      rw [reference, if_pos rfl, ih, skipStars_star]
    · rw [reference, if_neg hb, skipStars_cons hb]
      rfl

/-- From `p`, `k` bytes on, the pattern is at `q`, whatever the bytes are. -/
def Leads (nocase : Bool) (p : List UInt8) (k : Nat) (q : List UInt8) : Prop :=
  ∀ s, reference nocase p s = true → k ≤ s.length ∧ reference nocase q (s.drop k) = true

theorem Leads.single {k : Nat} {test : UInt8 → Bool} (h : Leads nocase p k q) (hq : Single nocase q test rest) :
    Leads nocase p (k + 1) rest := by
  intro s hs
  obtain ⟨hk, href⟩ := h s hs
  cases hdrop : s.drop k with
  | nil =>
    rw [hdrop, hq.reference_nil] at href
    exact absurd href Bool.false_ne_true
  | cons c tail =>
    have hlen := congrArg List.length hdrop
    rw [length_drop, length_cons] at hlen
    rw [hdrop, hq.reference, Bool.and_eq_true] at href
    rw [← drop_drop, hdrop]
    exact ⟨by omega, href.2⟩

/-- What a star gives if it takes at least one byte more. -/
def later (nocase : Bool) (p : List UInt8) : List UInt8 → Bool
  | [] => false
  | _ :: s => reference nocase ('*'.toUInt8 :: p) s

theorem reference_star_eq (p s : List UInt8) :
    reference nocase ('*'.toUInt8 :: p) s = (reference nocase p s || later nocase p s) := by
  cases s with
  | nil => rw [reference, if_pos rfl, later, Bool.or_false]
  | cons c s => rw [reference, if_pos rfl, later]

theorem Leads.later {k : Nat} (h : Leads nocase p k q) (hlater : later nocase p s = true) :
    ∃ j, 1 ≤ j ∧ j + k ≤ s.length ∧ reference nocase q (s.drop (j + k)) = true := by
  cases s with
  | nil => exact absurd hlater Bool.false_ne_true
  | cons c s =>
    obtain ⟨j, hj, href⟩ := (reference_star p s).mp hlater
    obtain ⟨hk, hq⟩ := h _ href
    rw [length_drop] at hk
    rw [drop_drop] at hq
    refine ⟨j + 1, Nat.succ_pos j, ?_, ?_⟩
    · rw [length_cons]
      omega
    · rw [add_right_comm]
      exact hq

/-- The answer is open at the two positions, or at the last star if it takes more. -/
inductive Open (nocase answer : Bool) (p s : List UInt8) : Option (List UInt8 × List UInt8) → Prop where
  | first (h : answer = reference nocase p s) : Open nocase answer p s none
  | star {starP starS : List UInt8} {k : Nat} (hp : p.length ≤ starP.length) (hk : k ≤ starS.length)
      (hs : s = starS.drop k) (hleads : Leads nocase starP k p)
      (h : answer = (reference nocase p s || later nocase starP starS)) : Open nocase answer p s (some (starP, starS))

private theorem open_star (p s : List UInt8) : Open nocase (reference nocase ('*'.toUInt8 :: p) s) p s (some (p, s)) :=
  .star (Nat.le_refl _) zero_le rfl (fun _ ht => ⟨zero_le, ht⟩) (reference_star_eq p s)

variable {answer : Bool} {c : UInt8} {star : Option (List UInt8 × List UInt8)}

/-- At the end of the string an earlier star cannot have taken more. -/
theorem Open.done (h : Open nocase answer p [] star) : answer = reference nocase p [] := by
  cases h with
  | first h => exact h
  | @star starP starS k hp hk hs hleads h =>
    have hlen := congrArg List.length hs
    rw [length_drop, length_nil] at hlen
    cases hlater : later nocase starP starS with
    | false => rw [h, hlater, Bool.or_false]
    | true =>
      obtain ⟨j, hj, hle, _⟩ := hleads.later hlater
      omega

/-- At a new star: what an earlier one could still give, this one gives too. -/
theorem Open.newStar (h : Open nocase answer ('*'.toUInt8 :: rest) s star) :
    answer = reference nocase ('*'.toUInt8 :: rest) s := by
  cases h with
  | first h => exact h
  | @star starP starS k hp hk hs hleads h =>
    cases hlater : later nocase starP starS with
    | false => rw [h, hlater, Bool.or_false]
    | true =>
      obtain ⟨j, _, _, href⟩ := hleads.later hlater
      rw [add_comm, ← drop_drop, ← hs] at href
      rw [h, hlater, Bool.or_true, reference_star_drop href]

theorem Open.matched {test : UInt8 → Bool} (hp : Single nocase p test rest) (hc : test c = true)
    (h : Open nocase answer p (c :: s) star) : Open nocase answer rest s star := by
  have href : reference nocase p (c :: s) = reference nocase rest s := by
    rw [hp.reference, hc, Bool.true_and]
  cases h with
  | first h => exact .first (h.trans href)
  | @star starP starS k hle hk hs hleads h =>
    have hlen := congrArg List.length hs
    rw [length_drop, length_cons] at hlen
    refine .star (k := k + 1) (hp.length.trans hle) (by omega) ?_ (hleads.single hp) (href ▸ h)
    rw [← drop_drop, ← hs]
    rfl

/-- After a mismatch: the star takes one byte more. -/
theorem Open.retry {starP starS : List UInt8} (hp : reference nocase p (c :: s) = false)
    (h : Open nocase answer p (c :: s) (some (starP, starS))) :
    starS ≠ [] ∧ answer = reference nocase ('*'.toUInt8 :: starP) starS.tail := by
  cases h with
  | star hle hk hs hleads h =>
    rw [hp, Bool.false_or] at h
    cases starS with
    | nil => exact absurd (hs.trans drop_nil) (cons_ne_nil c s)
    | cons d tail => exact ⟨cons_ne_nil d tail, h⟩

/-- Bytes the star may still take, and pattern after it. -/
def starLeft (p s : List UInt8) : Option (List UInt8 × List UInt8) → Nat
  | none => s.length + p.length + 1
  | some (starP, starS) => starS.length + starP.length

theorem Open.length_le (h : Open nocase answer p s star) : s.length + p.length ≤ starLeft p s star := by
  cases h with
  | first => exact Nat.le_succ _
  | star hp _ hs =>
    rw [starLeft, hs, length_drop]
    omega

-- A new star and a mismatch leave less to the star; a match leaves less of the string.
theorem globLoop_eq {left : Nat} (h : Open nocase answer p s star) (hleft : starLeft p s star < left) :
    ∃ n, ∀ m, globLoop nocase (n + m) p s star = some answer := by
  induction left generalizing p s star with
  | zero => exact absurd hleft (Nat.not_lt_zero _)
  | succ left ih =>
    induction s generalizing p with
    | nil =>
      refine ⟨1, fun m => ?_⟩
      rw [add_comm, globLoop, ← reference_nil, ← h.done]
    | cons c s ihs =>
      have hmismatch : advance nocase p c = .mismatch → reference nocase p (c :: s) = false →
          ∃ n, ∀ m, globLoop nocase (n + m) p (c :: s) star = some answer := by
        intro hadvance hfalse
        cases h with
        | first h =>
          refine ⟨1, fun m => ?_⟩
          rw [add_comm, globLoop, hadvance, h, hfalse]
        | @star starP starS k hp hk hs hleads h =>
          obtain ⟨hne, hanswer⟩ := Open.retry hfalse (.star hp hk hs hleads h)
          have hpos := length_pos_of_ne_nil hne
          obtain ⟨n, hn⟩ := ih (hanswer ▸ open_star starP starS.tail) (by rw [starLeft] at *; rw [length_tail]; omega)
          refine ⟨n + 1, fun m => ?_⟩
          simp only [add_right_comm n, globLoop, hadvance, hn]
      cases p with
      | nil => exact hmismatch rfl (by rw [reference]; rfl)
      | cons b rest =>
        by_cases hb : b = '*'.toUInt8
        · subst hb
          have hadvance : advance nocase ('*'.toUInt8 :: rest) c = .star (skipStars rest) := by
            rw [advance, if_pos rfl]
          have hskip : (skipStars rest).length ≤ rest.length := (dropWhile_sublist _).length_le
          have hlen := h.length_le
          have hanswer := h.newStar
          rw [← reference_skipStars] at hanswer
          obtain ⟨n, hn⟩ := ih (hanswer ▸ open_star (skipStars rest) (c :: s))
            (by rw [starLeft, length_cons]; rw [length_cons, length_cons] at hlen; omega)
          refine ⟨n + 1, fun m => ?_⟩
          simp only [add_right_comm n, globLoop, hadvance, hn]
        · obtain ⟨test, next, hp⟩ := single_of_ne_star nocase hb rest
          have hadvance := hp.advance c
          cases hc : test c with
          | false =>
            rw [hc] at hadvance
            exact hmismatch hadvance (by rw [hp.reference, hc, Bool.false_and])
          | true =>
            have hle : starLeft next s star ≤ starLeft (b :: rest) (c :: s) star := by
              cases star with
              | none => exact Nat.succ_le_succ (Nat.add_le_add (Nat.le_succ _) hp.length)
              | some star => exact Nat.le_refl _
            rw [hc] at hadvance
            obtain ⟨n, hn⟩ := ihs (h.matched hp hc) (hle.trans_lt hleft)
            refine ⟨n + 1, fun m => ?_⟩
            simp only [add_right_comm n, globLoop, hadvance, if_true, hn]

/-- The matcher ends, and its answer is that of the reference. -/
theorem globMatch_eq (pattern string : List UInt8) (nocase : Bool) :
    ∃ n, ∀ m, globMatch (n + m) pattern string nocase = some (reference nocase pattern string) :=
  globLoop_eq (.first rfl) (Nat.lt_succ_self _)

end InfinityDB.Server
