import Mathlib.Data.List.Basic

/-!
# Iterators

An iterator is a state and a call that hands out an item, or nothing, and leaves the next state; a
call that panics is `none`. What an iterator yields is said by the answers of any number of calls.
-/

namespace Lib

open List Option

variable {σ ι : Type} {next : σ → Option (Option ι × σ)} {s t : σ}

def calls (next : σ → Option (Option ι × σ)) : Nat → σ → Option (List (Option ι))
  | 0, _ => some []
  | n + 1, s => do
    let (item, s) ← next s
    let rest ← calls next n s
    some (item :: rest)

/-- The iterator hands out these items, and nothing from then on. -/
def Yields (next : σ → Option (Option ι × σ)) (s : σ) (items : List ι) : Prop :=
  ∀ n, calls next n s = some ((items.map some ++ List.replicate n none).take n)

theorem Yields.cons {item : ι} {items : List ι} (hnext : next s = some (some item, t)) (h : Yields next t items) :
    Yields next s (item :: items) := by
  intro n
  cases n with
  | zero => rfl
  | succ n =>
    have hmore : (items.map some ++ List.replicate (n + 1) none).take n = (items.map some ++ List.replicate n none).take n := by
      rw [replicate_succ', ← append_assoc, take_append_of_le_length]
      simp
    rw [calls, hnext, bind_eq_bind, bind_some]
    simp only
    rw [h n, map_cons, cons_append, take_succ_cons, hmore]
    rfl

/-- At the end a call hands out nothing and changes nothing. -/
theorem Yields.nil (hnext : next s = some (none, s)) : Yields next s [] := by
  intro n
  induction n with
  | zero => rfl
  | succ n ih =>
    rw [calls, hnext, bind_eq_bind, bind_some]
    simp only
    rw [ih]
    simp [replicate_succ]

theorem Yields.skip (hnext : next s = some (none, t)) (h : Yields next t []) : Yields next s [] := by
  intro n
  cases n with
  | zero => rfl
  | succ n =>
    rw [calls, hnext, bind_eq_bind, bind_some]
    simp only
    rw [h n]
    simp [replicate_succ]

/-- What every step keeps holds of every item. -/
theorem calls_of_step {P : σ → Prop} {Q : ι → Prop}
    (hstep : ∀ s, P s → ∃ item t, next s = some (item, t) ∧ P t ∧ ∀ a, item = some a → Q a) (hs : P s) (n : Nat) :
    ∃ items, calls next n s = some items ∧ ∀ a, some a ∈ items → Q a := by
  induction n generalizing s with
  | zero => exact ⟨[], rfl, fun a ha => absurd ha (by simp)⟩
  | succ n ih =>
    obtain ⟨item, t, hnext, ht, hitem⟩ := hstep s hs
    obtain ⟨items, hcalls, hitems⟩ := ih ht
    refine ⟨item :: items, ?_, fun a ha => ?_⟩
    · rw [calls, hnext, bind_eq_bind, bind_some]
      simp only
      rw [hcalls]
      rfl
    · rcases mem_cons.mp ha with heq | hmem
      · exact hitem a heq.symm
      · exact hitems a hmem

end Lib
