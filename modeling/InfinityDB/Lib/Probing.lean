import Mathlib

/-!
# Triangular probing

An open-addressing table of `2 ^ k` buckets is probed with a stride that grows by one at each
step. The buckets met are the triangular offsets from the first one, and over a power of two
every bucket is met exactly once. A lookup follows the probe sequence through the first bucket
at which it may stop; filling buckets only lengthens what it follows.
-/

namespace Lib

open List

/-- `left` buckets of the probe, from a bucket and the stride that led there. -/
def probeFrom (size : Nat) : Nat → Nat → Nat → List Nat
  | 0, _, _ => []
  | left + 1, bucket, stride => bucket :: probeFrom size left ((bucket + (stride + 1)) % size) (stride + 1)

def probeSeq (size hash : Nat) : List Nat := probeFrom size size (hash % size) 0

theorem probeFrom_getElem? {size : Nat} {left bucket stride k : Nat} (hbucket : bucket < size) (hk : k < left) :
    (probeFrom size left bucket stride)[k]? = some ((bucket + (stride * k + (k + 1).choose 2)) % size) := by
  induction left generalizing bucket stride k with
  | zero => omega
  | succ left ih =>
    cases k with
    | zero => simp [probeFrom, Nat.mod_eq_of_lt hbucket]
    | succ k =>
      rw [probeFrom, getElem?_cons_succ, ih (Nat.mod_lt _ (by omega)) (by omega), Nat.mod_add_mod]
      congr 2
      have hstep : (k + 2).choose 2 = (k + 1) + (k + 1).choose 2 := by
        rw [Nat.choose_succ_succ' (k + 1) 1, Nat.choose_one_right]
      rw [hstep]
      ring

theorem probeFrom_length (size left bucket stride : Nat) : (probeFrom size left bucket stride).length = left := by
  induction left generalizing bucket stride with
  | zero => rfl
  | succ left ih => rw [probeFrom, length_cons, ih]

/-- Below `2 ^ k` the triangular numbers are distinct modulo `2 ^ k`. -/
theorem triangular_inj {k i j : Nat} (hij : i ≤ j) (hj : j < 2 ^ k)
    (h : (i + 1).choose 2 ≡ (j + 1).choose 2 [MOD 2 ^ k]) : i = j := by
  have hdvd : 2 ^ k ∣ (j + 1).choose 2 - (i + 1).choose 2 :=
    (Nat.modEq_iff_dvd' (Nat.choose_le_choose 2 (by omega))).mp h
  have htwice (n : Nat) : 2 * (n + 1).choose 2 = n * (n + 1) := by
    rw [Nat.choose_two_right, Nat.add_sub_cancel, mul_comm (n + 1) n]
    exact Nat.mul_div_cancel' (Nat.even_mul_succ_self n).two_dvd
  -- twice the difference is a product of an even and an odd factor
  obtain ⟨d, rfl⟩ := Nat.exists_eq_add_of_le hij
  have hprod : 2 ^ (k + 1) ∣ d * (2 * i + d + 1) := by
    have hdiff : 2 * ((i + d + 1).choose 2 - (i + 1).choose 2) = d * (2 * i + d + 1) := by
      rw [Nat.mul_sub, htwice, htwice]
      refine Nat.sub_eq_of_eq_add ?_
      ring
    rw [← hdiff, pow_succ, mul_comm]
    exact Nat.mul_dvd_mul_left 2 hdvd
  have hodd {n : Nat} (hn : n % 2 = 1) : (2 ^ (k + 1)).Coprime n :=
    Nat.Coprime.pow_left _ ((Nat.coprime_two_left).mpr (Nat.odd_iff.mpr hn))
  rcases Nat.mod_two_eq_zero_or_one d with heven | hone
  · have hd := (hodd (show (2 * i + d + 1) % 2 = 1 by omega)).dvd_of_dvd_mul_right hprod
    have := Nat.eq_zero_of_dvd_of_lt hd (by omega)
    omega
  · have hd := (hodd hone).dvd_of_dvd_mul_left hprod
    have := Nat.le_of_dvd (by omega) hd
    omega

theorem nodup_probeSeq (k hash : Nat) : (probeSeq (2 ^ k) hash).Nodup := by
  have hpos : 0 < 2 ^ k := by positivity
  rw [nodup_iff_injective_get]
  intro ⟨i, hi⟩ ⟨j, hj⟩ heq
  rw [probeSeq, probeFrom_length] at hi hj
  have hat (n : Nat) (hn : n < (probeSeq (2 ^ k) hash).length) :
      (probeSeq (2 ^ k) hash)[n] = (hash % 2 ^ k + (n + 1).choose 2) % 2 ^ k := by
    have hn' := hn
    rw [probeSeq, probeFrom_length] at hn'
    have := @probeFrom_getElem? _ _ _ 0 _ (Nat.mod_lt hash hpos) hn'
    rw [getElem?_eq_getElem (by rwa [probeFrom_length]), zero_mul, zero_add] at this
    exact Option.some.inj this
  simp only [get_eq_getElem, hat] at heq
  have hmod : (i + 1).choose 2 ≡ (j + 1).choose 2 [MOD 2 ^ k] := Nat.ModEq.add_left_cancel' _ heq
  have hij : i = j := by
    rcases Nat.le_total i j with h | h
    · exact triangular_inj h hj hmod
    · exact (triangular_inj h hi hmod.symm).symm
  exact Fin.ext hij

theorem lt_of_mem_probeSeq {size hash bucket : Nat} (h : bucket ∈ probeSeq size hash) : bucket < size := by
  obtain ⟨n, hn⟩ := getElem?_of_mem h
  have hlt := (List.getElem?_eq_some_iff.mp hn).1
  rw [probeSeq, probeFrom_length] at hlt
  rw [probeSeq, probeFrom_getElem? (Nat.mod_lt _ (by omega)) hlt] at hn
  rw [← Option.some.inj hn]
  exact Nat.mod_lt _ (by omega)

theorem mem_probeSeq {k hash bucket : Nat} (h : bucket < 2 ^ k) : bucket ∈ probeSeq (2 ^ k) hash := by
  have hsub : (probeSeq (2 ^ k) hash).toFinset ⊆ Finset.range (2 ^ k) := fun b hb =>
    Finset.mem_range.mpr (lt_of_mem_probeSeq (mem_toFinset.mp hb))
  have hcard : (probeSeq (2 ^ k) hash).toFinset.card = 2 ^ k := by
    rw [toFinset_card_of_nodup (nodup_probeSeq k hash), probeSeq, probeFrom_length]
  have heq := Finset.eq_of_subset_of_card_le hsub (by rw [hcard, Finset.card_range])
  rw [← mem_toFinset, heq]
  exact Finset.mem_range.mpr h

section TakeThrough
variable {α : Type*} {p q : α → Bool} {l : List α} {x : α}

/-- The elements through the first at which `p` holds. -/
def takeThrough (p : α → Bool) : List α → List α
  | [] => []
  | x :: xs => x :: if p x then [] else takeThrough p xs

theorem takeThrough_isPrefix (p : α → Bool) (l : List α) : takeThrough p l <+: l := by
  induction l with
  | nil => exact prefix_refl _
  | cons x xs ih =>
    rw [takeThrough, cons_prefix_cons]
    refine ⟨rfl, ?_⟩
    split
    · exact nil_prefix
    · exact ih

theorem mem_takeThrough :
    x ∈ takeThrough p l ↔ ∃ before after, l = before ++ x :: after ∧ ∀ y ∈ before, p y = false := by
  induction l with
  | nil => simp [takeThrough]
  | cons y ys ih =>
    rw [takeThrough, mem_cons]
    constructor
    · rintro (rfl | h)
      · exact ⟨[], ys, rfl, by simp⟩
      · split at h
        · simp at h
        rename_i hy
        obtain ⟨before, after, rfl, hbefore⟩ := ih.mp h
        refine ⟨y :: before, after, rfl, fun z hz => ?_⟩
        rcases mem_cons.mp hz with rfl | hz
        · simpa using hy
        · exact hbefore z hz
    · rintro ⟨before, after, heq, hbefore⟩
      cases before with
      | nil => exact .inl (List.cons.inj heq).1.symm
      | cons z before =>
        obtain ⟨rfl, rfl⟩ := List.cons.inj heq
        rw [if_neg (by simp [hbefore y (by simp)])]
        exact .inr (ih.mpr ⟨before, after, rfl, (forall_mem_cons.mp hbefore).2⟩)

/-- Fewer stops, longer walks. -/
theorem mem_takeThrough_of_imp (h : ∀ y, q y = true → p y = true) (hx : x ∈ takeThrough p l) : x ∈ takeThrough q l := by
  obtain ⟨before, after, hl, hbefore⟩ := mem_takeThrough.mp hx
  refine mem_takeThrough.mpr ⟨before, after, hl, fun y hy => ?_⟩
  cases hq : q y with
  | false => rfl
  | true => exact absurd (h y hq) (by simp [hbefore y hy])

end TakeThrough

end Lib
