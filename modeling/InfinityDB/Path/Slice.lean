import InfinityDB.Doc.Path
import InfinityDB.Path.Program

/-!
# Slices in machine integers

`resolve_slice` and the slice frame of the evaluator over `i64`. An addition that leaves the type is
`none`, as is an ordinal outside the array; the cursor's own step saturates.
-/

namespace InfinityDB.Slice

open List Option

/-- An `i64` addition that must not wrap. -/
def addI64 (a b : Int) : Option Int := if -2 ^ 63 ≤ a + b ∧ a + b < 2 ^ 63 then some (a + b) else none

def saturatingAdd (a b : Int) : Int := max (-2 ^ 63) (min (a + b) (2 ^ 63 - 1))

structure Progress where
  next : Int
  stop : Int
  step : Int

/-- A bound of the slice: a negative one counts from the end. -/
def resolve (len : Int) (bound : Option Int64) (default : Int) : Option Int :=
  match bound with
  | none => some default
  | some v => if v.toInt < 0 then addI64 v.toInt len else some v.toInt

def resolveSlice (spec : Ast.SliceSpec) (len : Int) : Option Progress :=
  let step := (spec.step.map Int64.toInt).getD 1
  if 0 < step then do
    let start ← resolve len spec.start 0
    let stop ← resolve len spec.stop len
    some ⟨clamp start 0 len, clamp stop 0 len, step⟩
  else do
    let last ← addI64 len (-1)
    let start ← resolve len spec.start last
    let stop ← resolve len spec.stop (-1)
    some ⟨clamp start (-1) last, clamp stop (-1) last, step⟩

/-- One call on a slice frame: the ordinal and the cursor after it, or the end. -/
def advance (len : Nat) (p : Progress) : Option (Option (Nat × Progress)) :=
  if (0 < p.step ∧ p.stop ≤ p.next) ∨ (p.step < 0 ∧ p.next ≤ p.stop) then some none
  else if 0 ≤ p.next ∧ p.next < len then some (some (p.next.toNat, { p with next := saturatingAdd p.next p.step }))
  else none

/-- The ordinals of a frame called until it ends, within a number of calls. -/
def drain (len : Nat) : Nat → Progress → Option (List Nat)
  | 0, _ => none
  | calls + 1, p => do
    match ← advance len p with
    | none => some []
    | some (ord, p') => (ord :: ·) <$> drain len calls p'

def ords (calls : Nat) (spec : Ast.SliceSpec) (len : Nat) : Option (List Nat) := do drain len calls (← resolveSlice spec len)

/-- A bound as Python adjusts it: counted from the end when negative, then cut to the ends of the walk. -/
def pyBound (len low high : Int) (bound : Option Int64) (default : Int) : Int :=
  match bound with
  | none => default
  | some v => if v.toInt < 0 then max low (v.toInt + len) else min v.toInt high

def pyProgress (spec : Ast.SliceSpec) (len : Int) : Progress :=
  let step := (spec.step.map Int64.toInt).getD 1
  if 0 < step then ⟨pyBound len 0 len spec.start 0, pyBound len 0 len spec.stop len, step⟩
  else ⟨pyBound len (-1) (len - 1) spec.start (len - 1), pyBound len (-1) (len - 1) spec.stop (-1), step⟩

def Progress.count (p : Progress) : Nat :=
  if 0 < p.step then ((p.stop - p.next + (p.step - 1)) / p.step).toNat else ((p.next - p.stop + (-p.step - 1)) / -p.step).toNat

/-- The items `start + n * step` before the stop. -/
def pySlice (spec : Ast.SliceSpec) (len : Nat) : List Nat :=
  let p := pyProgress spec len
  (List.range p.count).map fun n : Nat => (p.next + n * p.step).toNat

private theorem resolve_clamp {len : Nat} {low high default : Int} (bound : Option Int64) (hmax : len < 2 ^ 32)
    (h : -1 ≤ low ∧ low ≤ 0 ∧ low ≤ high ∧ len - 1 ≤ high ∧ low ≤ default ∧ default ≤ high) :
    ∃ v, resolve len bound default = some v ∧ clamp v low high = pyBound len low high bound default := by
  cases bound with
  | none => exact ⟨default, rfl, by rw [clamp, pyBound]; omega⟩
  | some v =>
    have hv := v.le_toInt
    simp only [resolve, pyBound]
    split
    · exact ⟨_, if_pos (by omega), by rw [clamp]; omega⟩
    · exact ⟨_, rfl, by rw [clamp]; omega⟩

/-- The bounds of a walk over `len` items. -/
structure Progress.Within (p : Progress) (len : Nat) : Prop where
  up : 0 < p.step → 0 ≤ p.next ∧ p.stop ≤ len
  down : p.step < 0 → p.next < len ∧ -1 ≤ p.stop
  step : p.step ≠ 0

/-- No addition of the resolution wraps, and the bounds are Python's. -/
theorem resolveSlice_eq {spec : Ast.SliceSpec} {len : Nat} (hmax : len < 2 ^ 32) (hstep : spec.step ≠ some 0) :
    resolveSlice spec len = some (pyProgress spec len) ∧ (pyProgress spec len).Within len := by
  have hne : (spec.step.map Int64.toInt).getD 1 ≠ 0 := by
    cases h : spec.step with
    | none => exact Int.one_ne_zero
    | some v => exact fun hzero => hstep (h.trans (congrArg some (Int64.toInt_inj.mp hzero)))
  rw [resolveSlice, pyProgress]
  split
  · obtain ⟨start, hstart, hclamp⟩ := @resolve_clamp len 0 len 0 spec.start hmax (by omega)
    obtain ⟨stop, hstop, hclamp'⟩ := @resolve_clamp len 0 len len spec.stop hmax (by omega)
    rw [hstart, hstop, ← hclamp, ← hclamp']
    refine ⟨rfl, fun _ => ?_, fun h => absurd h (by simp only; omega), hne⟩
    simp only [clamp]
    omega
  · have hlast : addI64 (len : Int) (-1) = some ((len : Int) - 1) := if_pos (by omega)
    obtain ⟨start, hstart, hclamp⟩ := @resolve_clamp len (-1) (len - 1) (len - 1) spec.start hmax (by omega)
    obtain ⟨stop, hstop, hclamp'⟩ := @resolve_clamp len (-1) (len - 1) (-1) spec.stop hmax (by omega)
    rw [hlast, ← hclamp, ← hclamp']
    simp only [bind_eq_bind, bind_some, hstart, hstop]
    refine ⟨trivial, fun h => absurd h (by assumption), fun _ => ?_, hne⟩
    simp only [clamp]
    omega

/-- The item `n` steps on lies before the stop. -/
def Progress.Ahead (p : Progress) (n : Nat) : Prop :=
  (0 < p.step ∧ p.next + n * p.step < p.stop) ∨ (p.step < 0 ∧ p.stop < p.next + n * p.step)

private theorem ceil_count {a k : Int} (hk : 0 < k) (n : Nat) : n < ((a + (k - 1)) / k).toNat ↔ n * k < a := by
  rw [Int.lt_toNat, Int.lt_iff_add_one_le, Int.le_ediv_iff_mul_le hk, Int.add_mul]
  omega

theorem Progress.lt_count {p : Progress} (hstep : p.step ≠ 0) (n : Nat) : n < p.count ↔ p.Ahead n := by
  rw [count, Ahead]
  split
  · rw [ceil_count (by omega)]
    omega
  · rw [ceil_count (by omega), Int.mul_neg]
    omega

section Walk
variable {len : Nat} {p : Progress} (hw : p.Within len) (hmax : len < 2 ^ 32)
include hw hmax

/-- A call with an item ahead gives its ordinal. Where the cursor saturates nothing is left. -/
private theorem advance_item (h : p.Ahead 0) :
    p.next.toNat < len ∧ ∃ p', advance len p = some (some (p.next.toNat, p')) ∧ p'.Within len ∧ p'.step = p.step ∧
      (∀ n, p'.Ahead n ↔ p.Ahead (n + 1)) ∧ (p.Ahead 1 → p'.next = p.next + p.step) := by
  have hup := hw.up
  have hdown := hw.down
  have hin : 0 ≤ p.next ∧ p.next < len := by
    rw [Progress.Ahead] at h
    omega
  refine ⟨by omega, { p with next := saturatingAdd p.next p.step }, ?_, ?_, rfl, fun n => ?_, fun h1 => ?_⟩
  · rw [advance, if_neg (by rw [Progress.Ahead] at h; omega), if_pos hin]
  · refine ⟨fun hs => ?_, fun hs => ?_, hw.step⟩ <;> simp only [saturatingAdd] at hs ⊢ <;> omega
  · simp only [Progress.Ahead, saturatingAdd]
    rw [Nat.cast_succ, Int.add_mul]
    rcases lt_or_gt_of_ne hw.step with hs | hs
    · have hn : (n : Int) * p.step ≤ 0 := Int.mul_nonpos_of_nonneg_of_nonpos (by omega) (by omega)
      omega
    · have hn : 0 ≤ (n : Int) * p.step := Int.mul_nonneg (by omega) (by omega)
      omega
  · simp only [Progress.Ahead, saturatingAdd] at h1 ⊢
    omega

/-- A frame with `count` items ahead gives them and ends. -/
theorem drain_eq {count : Nat} (hcount : ∀ n, n < count ↔ p.Ahead n) (extra : Nat) :
    drain len (count + 1 + extra) p = some ((List.range count).map fun n : Nat => (p.next + n * p.step).toNat) ∧
      ∀ n < count, (p.next + n * p.step).toNat < len := by
  induction count generalizing p with
  | zero =>
    have hend : ¬ p.Ahead 0 := fun h => absurd ((hcount 0).mpr h) (Nat.lt_irrefl 0)
    refine ⟨?_, fun n hn => absurd hn (Nat.not_lt_zero n)⟩
    rw [zero_add, add_comm, drain, advance, if_pos (by have := hw.step; rw [Progress.Ahead] at hend; omega)]
    rfl
  | succ count ih =>
    obtain ⟨hlt, p', hadv, hw', hstep, hahead, hnext⟩ := advance_item hw hmax ((hcount 0).mp (Nat.succ_pos _))
    have hcount' (n : Nat) : n < count ↔ p'.Ahead n := by rw [hahead, ← hcount, Nat.add_lt_add_iff_right]
    obtain ⟨hdrain, hall⟩ := ih hw' hcount'
    -- an item after this one is where the cursor has not saturated
    have hsucc (n : Nat) (hn : n < count) : p.next + (n + 1 : Nat) * p.step = p'.next + n * p'.step := by
      rw [hnext ((hcount 1).mp (by omega)), hstep, Nat.cast_succ, Int.add_mul]
      omega
    constructor
    · have hcalls : count + 1 + 1 + extra = count + 1 + extra + 1 := by omega
      rw [hcalls, drain, hadv, range_succ_eq_map, map_cons, List.map_map]
      simp only [bind_eq_bind, bind_some]
      rw [hdrain]
      simp only [Option.map_eq_map, map_some, Nat.cast_zero, Int.zero_mul, Int.add_zero]
      congr 2
      apply map_congr_left
      intro n hn
      exact congrArg Int.toNat (hsucc n (mem_range.mp hn)).symm
    · intro n hn
      cases n with
      | zero => simpa using hlt
      | succ n =>
        rw [hsucc n (by omega)]
        exact hall n (by omega)

private theorem count_le : p.count ≤ len := by
  by_contra hlt
  have hup := hw.up
  have hdown := hw.down
  have h := (Progress.lt_count hw.step len).mp (by omega)
  rw [Progress.Ahead] at h
  rcases lt_or_gt_of_ne hw.step with hs | hs
  · have : (len : Int) * p.step ≤ len * -1 := Int.mul_le_mul_of_nonneg_left (by omega) (by omega)
    omega
  · have : (len : Int) * 1 ≤ len * p.step := Int.mul_le_mul_of_nonneg_left (by omega) (by omega)
    omega

end Walk

/-- A slice visits Python's items in Python's order, all inside the array, and ends within one call more than the array
has items. No addition wraps: one that did would be `none`. -/
theorem slice_ords (spec : Ast.SliceSpec) (len : Nat) (hmax : len < 2 ^ 32) (hstep : spec.step ≠ some 0) (extra : Nat) :
    ords (len + 1 + extra) spec len = some (pySlice spec len) ∧ ∀ ord ∈ pySlice spec len, ord < len := by
  obtain ⟨hresolve, hw⟩ := resolveSlice_eq hmax hstep
  have hle := count_le hw hmax
  obtain ⟨hdrain, hall⟩ := drain_eq hw hmax (Progress.lt_count hw.step) (len - (pyProgress spec len).count + extra)
  constructor
  · rw [ords, hresolve, pySlice, ← hdrain]
    simp only [bind_eq_bind, bind_some]
    congr 1
    omega
  · intro ord hord
    obtain ⟨n, hn, rfl⟩ := List.mem_map.mp hord
    exact hall n (mem_range.mp hn)

theorem slice_ords_reverse :
    ords 6 ⟨some 9, none, some (-2)⟩ 5 = some [4, 2, 0] ∧ ∀ ord ∈ pySlice ⟨some 9, none, some (-2)⟩ 5, ord < 5 :=
  slice_ords ⟨some 9, none, some (-2)⟩ 5 (by decide) (by decide) 0

end InfinityDB.Slice
