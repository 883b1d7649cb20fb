import Mathlib

/-!
# Woven lists

`weave [x₀, …, xₙ] [s₁, …, sₙ]` is `x₀ ++ s₁ :: x₁ ++ … ++ sₙ :: xₙ`: runs separated by single
elements. A search tree of uniform depth is a tower of such lists, each level's runs woven with
the level above, and every rotation, split or merge is a regrouping that leaves the woven list
alone. The lemmas here open a woven list around one run and around two neighbours.
-/

namespace Lib

open List

variable {α : Type}

/-- What holds of all elements still does when new ones replace a middle run. -/
theorem forall_mem_splice {P : α → Prop} {left right : List α} (old new : List α)
    (h : ∀ x ∈ left ++ (old ++ right), P x) (hnew : ∀ x ∈ new, P x) : ∀ x ∈ left ++ (new ++ right), P x := by
  simp only [forall_mem_append] at h ⊢
  exact ⟨h.1, hnew, h.2.2⟩

/-- Each run followed by the separator to its right. -/
def weaveL (runs : List (List α)) (seps : List α) : List α :=
  (List.zipWith (fun run sep => run ++ [sep]) runs seps).flatten

/-- Each run preceded by the separator to its left. -/
def weaveR (seps : List α) (runs : List (List α)) : List α :=
  (List.zipWith List.cons seps runs).flatten

def weave : List (List α) → List α → List α
  | [], _ => []
  | run :: runs, seps => run ++ weaveR seps runs

@[simp] theorem weaveL_nil (seps : List α) : weaveL [] seps = [] := by simp [weaveL]

@[simp] theorem weaveL_cons (run : List α) (runs : List (List α)) (sep : α) (seps : List α) :
    weaveL (run :: runs) (sep :: seps) = run ++ sep :: weaveL runs seps := by simp [weaveL]

@[simp] theorem weaveR_nil (seps : List α) : weaveR seps [] = [] := by simp [weaveR]

@[simp] theorem weaveR_nil_left (runs : List (List α)) : weaveR [] runs = [] := by simp [weaveR]

@[simp] theorem weaveR_cons (sep : α) (seps : List α) (run : List α) (runs : List (List α)) :
    weaveR (sep :: seps) (run :: runs) = sep :: run ++ weaveR seps runs := by simp [weaveR]

@[simp] theorem weave_singleton (run : List α) (seps : List α) : weave [run] seps = run := by
  simp [weave]

/-- A woven list opened around one run. -/
theorem weave_split {left : List (List α)} {sl : List α} (run : List α) (right : List (List α)) (sr : List α)
    (h : left.length = sl.length) :
    weave (left ++ run :: right) (sl ++ sr) = weaveL left sl ++ run ++ weaveR sr right := by
  induction left generalizing sl with
  | nil =>
    obtain rfl : sl = [] := length_eq_zero_iff.mp h.symm
    simp [weave]
  | cons x left ih =>
    cases sl with
    | nil => simp at h
    | cons s sl =>
      have hrest := ih (show left.length = sl.length by simpa using h)
      cases left with
      | nil =>
        obtain rfl : sl = [] := by simpa using h.symm
        simp [weave]
      | cons y left =>
        simp only [cons_append, weave] at hrest ⊢
        rw [weaveR_cons, weaveL_cons]
        simp only [cons_append, append_assoc] at hrest ⊢
        rw [hrest]

variable {runs : List (List α)} {seps : List α}

theorem weaveL_length (h : runs.length = seps.length) :
    (weaveL runs seps).length = (runs.map fun run => run.length + 1).sum := by
  induction runs generalizing seps with
  | nil => simp
  | cons run runs ih =>
    cases seps with
    | nil => simp at h
    | cons sep seps =>
      have hrest := ih (show runs.length = seps.length by simpa using h)
      simp only [weaveL_cons, length_append, length_cons, map_cons, sum_cons, hrest]
      omega

theorem weave_length (h : runs.length = seps.length + 1) :
    (weave runs seps).length + 1 = (runs.map fun run => run.length + 1).sum := by
  cases hr : runs using List.reverseRecOn with
  | nil => simp [hr] at h
  | append_singleton left run =>
    have hl : left.length = seps.length := by simpa [hr] using h
    have hw := weave_split run [] [] hl
    rw [append_nil] at hw
    rw [hw, weaveR_nil, append_nil, length_append, weaveL_length hl]
    simp only [map_append, sum_append, map_cons, map_nil, sum_cons, sum_nil]
    omega

theorem seps_sublist_weave (h : runs.length = seps.length + 1) : seps.Sublist (weave runs seps) := by
  cases runs with
  | nil => simp at h
  | cons run runs =>
    refine List.Sublist.trans ?_ (sublist_append_right run _)
    have hl : seps.length = runs.length := by simpa using h.symm
    clear h
    induction seps generalizing runs with
    | nil => simp
    | cons sep seps ih =>
      cases runs with
      | nil => simp at hl
      | cons x runs =>
        rw [weaveR_cons, cons_append]
        exact (ih runs (by simpa using hl)).trans (sublist_append_right _ _) |>.cons_cons _

theorem runs_sublist_weave (runs : List (List α)) (seps : List α) (h : runs.length = seps.length + 1) :
    runs.flatten.Sublist (weave runs seps) := by
  cases runs with
  | nil => simp
  | cons run runs =>
    rw [flatten_cons]
    refine List.Sublist.append_left ?_ run
    have hl : seps.length = runs.length := by simpa using h.symm
    clear h
    induction seps generalizing runs with
    | nil =>
      obtain rfl : runs = [] := length_eq_zero_iff.mp (by simpa using hl.symm)
      simp
    | cons sep seps ih =>
      cases runs with
      | nil => simp at hl
      | cons x runs =>
        rw [weaveR_cons, cons_append, flatten_cons]
        exact (List.Sublist.append_left (ih runs (by simpa using hl)) x).cons sep

/-- Weaving only orders the elements. -/
theorem weave_perm (h : runs.length = seps.length + 1) : (weave runs seps).Perm (runs.flatten ++ seps) := by
  cases runs with
  | nil => simp at h
  | cons run runs =>
    rw [weave, flatten_cons, append_assoc]
    refine List.Perm.append_left run ?_
    have hl : seps.length = runs.length := by simpa using h.symm
    clear h
    induction seps generalizing runs with
    | nil =>
      obtain rfl : runs = [] := length_eq_zero_iff.mp (by simpa using hl.symm)
      simp
    | cons sep seps ih =>
      cases runs with
      | nil => simp at hl
      | cons x runs =>
        have hrest := ih runs (by simpa using hl)
        rw [weaveR_cons, cons_append, flatten_cons]
        refine List.Perm.trans (List.Perm.cons sep (hrest.append_left x)) ?_
        rw [← append_assoc]
        exact perm_middle.symm

/-- A property that passes to earlier elements holds left of a focus once its separators have it. -/
theorem forall_mem_weaveL {R : α → α → Prop} {P : α → Prop} (hP : ∀ x s, R x s → P s → P x)
    (hR : (weaveL runs seps).Pairwise R) (hs : ∀ s ∈ seps, P s) : ∀ x ∈ weaveL runs seps, P x := by
  induction runs generalizing seps with
  | nil => simp
  | cons run runs ih =>
    cases seps with
    | nil => simp [weaveL]
    | cons s seps =>
      rw [weaveL_cons, pairwise_append, pairwise_cons] at hR
      intro x hx
      rw [weaveL_cons, mem_append, mem_cons] at hx
      rcases hx with hx | rfl | hx
      · exact hP x s (hR.2.2 x hx s (by simp)) (hs s (by simp))
      · exact hs x (by simp)
      · exact ih hR.2.1.2 (fun s hs' => hs s (by simp [hs'])) x hx

theorem forall_mem_weaveR {R : α → α → Prop} {P : α → Prop} (hP : ∀ s x, R s x → P s → P x)
    (hR : (weaveR seps runs).Pairwise R) (hs : ∀ s ∈ seps, P s) : ∀ x ∈ weaveR seps runs, P x := by
  induction runs generalizing seps with
  | nil => simp
  | cons run runs ih =>
    cases seps with
    | nil => simp
    | cons s seps =>
      rw [weaveR_cons, cons_append, pairwise_cons, pairwise_append] at hR
      intro x hx
      rw [weaveR_cons, cons_append, mem_cons, mem_append] at hx
      rcases hx with rfl | hx | hx
      · exact hs x (by simp)
      · exact hP s x (hR.1 x (by simp [hx])) (hs s (by simp))
      · exact ih hR.2.2.1 (fun s hs' => hs s (by simp [hs'])) x hx

end Lib
