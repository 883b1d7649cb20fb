import Mathlib

/-!
# Ordered sweeps over a changing set

A sweep visits a linear order from below while the set under it changes. All it keeps is the
lower set of what it has passed; each visit returns the least element beyond it. This is enough
for the visits to ascend and to miss nothing that stayed in the set.
-/

namespace Lib

open List

variable {α : Type*} [LinearOrder α]

/-- What a visit may return: the least element beyond the passed ones, or nothing if all are passed. -/
def IsNext (s passed : Set α) : Option α → Prop
  | none => s ⊆ passed
  | some a => a ∈ s ∧ a ∉ passed ∧ ∀ b ∈ s, b ∉ passed → a ≤ b

/-- A sweep from `start`: the sets it met, what it returned and what it has passed. -/
inductive Sweeps (start : Set α) : List (Set α) → List α → Set α → Prop
  | begin (s : Set α) : Sweeps start [s] [] start
  | change {met : List (Set α)} {returned : List α} {passed : Set α} (h : Sweeps start met returned passed)
      (s : Set α) : Sweeps start (met ++ [s]) returned passed
  | visit {met : List (Set α)} {returned : List α} {passed s : Set α} {a : α}
      (h : Sweeps start met returned passed) (hs : s ∈ met) (ha : IsNext s passed (some a)) :
      Sweeps start met (returned ++ [a]) (Set.Iic a)

namespace Sweeps
variable {start passed : Set α} {met : List (Set α)} {returned : List α}

section
variable (h : Sweeps start met returned passed)
include h

theorem isLowerSet (hstart : IsLowerSet start) : IsLowerSet passed := by
  induction h with
  | begin s => exact hstart
  | change h s ih => exact ih
  | visit h hs ha ih => exact isLowerSet_Iic _

theorem start_subset (hstart : IsLowerSet start) : start ⊆ passed := by
  induction h with
  | begin s => exact subset_rfl
  | change h s ih => exact ih
  | visit h hs ha ih =>
    intro b hb
    by_contra hba
    exact ha.2.1 (h.isLowerSet hstart (le_of_lt (not_le.mp hba)) (ih hb))

/-- Everything returned lies beyond the start, among what is passed, and in ascending order. -/
theorem ascending (hstart : IsLowerSet start) : returned.Pairwise (· < ·) ∧ ∀ a ∈ returned, a ∈ passed ∧ a ∉ start := by
  induction h with
  | begin s => exact ⟨List.Pairwise.nil, by simp⟩
  | change h s ih => exact ih
  | @visit met returned passed s a h hs ha ih =>
    obtain ⟨hsorted, hmem⟩ := ih
    have hlt : ∀ b ∈ returned, b < a := by
      intro b hb
      by_contra hba
      exact ha.2.1 (h.isLowerSet hstart (not_lt.mp hba) (hmem b hb).1)
    refine ⟨?_, ?_⟩
    · rw [pairwise_append]
      refine ⟨hsorted, pairwise_singleton _ _, ?_⟩
      rintro b hb c hc
      rw [mem_singleton.mp hc]
      exact hlt b hb
    · intro b hb
      rcases mem_append.mp hb with hb | hb
      · exact ⟨(hlt b hb).le, (hmem b hb).2⟩
      · rw [mem_singleton.mp hb]
        exact ⟨Set.mem_Iic.mpr le_rfl, fun hin => ha.2.1 (h.start_subset hstart hin)⟩

theorem mem_met {a : α} (ha : a ∈ returned) : ∃ s ∈ met, a ∈ s := by
  induction h with
  | begin s => exact absurd ha not_mem_nil
  | change h s ih =>
    obtain ⟨t, ht, hat⟩ := ih ha
    exact ⟨t, mem_append_left _ ht, hat⟩
  | @visit met returned passed s b h hs hb ih =>
    rcases mem_append.mp ha with ha | ha
    · exact ih ha
    · rw [mem_singleton.mp ha]
      exact ⟨s, hs, hb.1⟩

/-- What is passed beyond the start lies at or below something returned. -/
theorem bounded {a : α} (ha : a ∈ passed) (hbeyond : a ∉ start) : ∃ b ∈ returned, a ≤ b := by
  induction h with
  | begin s => exact absurd ha hbeyond
  | change h s ih => exact ih ha
  | @visit met returned passed s b h hs hb ih => exact ⟨b, by simp, ha⟩

/-- Nothing that was there all along is skipped. -/
theorem complete {a : α} (ha : a ∈ passed) (hbeyond : a ∉ start) (hthere : ∀ s ∈ met, a ∈ s) : a ∈ returned := by
  induction h with
  | begin s => exact absurd ha hbeyond
  | change h s ih => exact ih ha fun t ht => hthere t (mem_append_left _ ht)
  | @visit met returned passed s b h hs hb ih =>
    by_cases hpassed : a ∈ passed
    · exact mem_append_left _ (ih hpassed hthere)
    · obtain rfl : a = b := le_antisymm ha (hb.2.2 a (hthere s hs) hpassed)
      simp

/-- A sweep that finds nothing more has returned what stayed, each element once. -/
theorem exhausted (hstart : IsLowerSet start) {s : Set α} (hs : s ∈ met)
    (hend : IsNext s passed none) {a : α} (hbeyond : a ∉ start) (hthere : ∀ t ∈ met, a ∈ t)
    [DecidableEq α] : returned.count a = 1 := by
  have hmem := h.complete (hend (hthere s hs)) hbeyond hthere
  have hnodup : returned.Nodup := (h.ascending hstart).1.imp fun hlt => ne_of_lt hlt
  exact count_eq_one_of_mem hnodup hmem

end

end Sweeps

/-- An ascending list that holds with each element all smaller ones of another is its beginning. -/
theorem isPrefix_of_lower {xs ys : List α} (hxs : xs.Pairwise (· < ·)) (hys : ys.Pairwise (· < ·))
    (hsub : ∀ x ∈ xs, x ∈ ys) (hlower : ∀ x ∈ xs, ∀ y ∈ ys, y ≤ x → y ∈ xs) : xs <+: ys := by
  induction xs generalizing ys with
  | nil => exact nil_prefix
  | cons x xs ih =>
    cases ys with
    | nil => exact absurd (hsub x mem_cons_self) not_mem_nil
    | cons y ys =>
      obtain ⟨hx, hxs'⟩ := pairwise_cons.mp hxs
      obtain ⟨hy, hys'⟩ := pairwise_cons.mp hys
      obtain rfl : x = y := by
        rcases mem_cons.mp (hsub x mem_cons_self) with rfl | hmem
        · rfl
        · have hyx := hy x hmem
          rcases mem_cons.mp (hlower x mem_cons_self y mem_cons_self hyx.le) with rfl | hmem'
          · rfl
          · exact absurd (hx y hmem') hyx.asymm
      refine cons_prefix_cons.mpr ⟨rfl, ih hxs' hys' (fun a ha => ?_) fun a ha b hb hle => ?_⟩
      · rcases mem_cons.mp (hsub a (mem_cons_of_mem _ ha)) with rfl | hmem
        · exact absurd (hx a ha) (lt_irrefl a)
        · exact hmem
      · rcases mem_cons.mp (hlower a (mem_cons_of_mem _ ha) b (mem_cons_of_mem _ hb) hle) with rfl | hmem
        · exact absurd (hy b hb) (lt_irrefl b)
        · exact hmem

end Lib
