import Mathlib.Data.Nat.ModEq
import Mathlib.Data.List.Pairwise
import Mathlib.Order.Interval.Finset.Nat
import Mathlib.Tactic.Ring

/-!
# Windows that slide over a ring

Positions grow for ever, slots are positions modulo the ring. A window no longer than the ring names
each of its positions by a slot of its own. `Covers` ties a window to the flags of the slots; moving
either end costs one flag per slot passed, in runs that stop where the ring wraps.
-/

namespace Lib

open List

def floorTo (page x : Nat) : Nat := x - x % page

def ceilTo (page x : Nat) : Nat := floorTo page (x + page - 1)

theorem floorTo_eq (page x : Nat) : floorTo page x = page * (x / page) := by
  have h := Nat.div_add_mod x page
  unfold floorTo
  omega

theorem floorTo_le (page x : Nat) : floorTo page x ≤ x := Nat.sub_le _ _

theorem dvd_floorTo (page x : Nat) : page ∣ floorTo page x := Nat.dvd_sub_mod x

variable {page x y first count : Nat} {flags : List Bool}

theorem lt_floorTo_add (hpage : 0 < page) (x : Nat) : x < floorTo page x + page := by
  have h := Nat.mod_lt x hpage
  unfold floorTo
  omega

theorem le_floorTo (hdvd : page ∣ y) (hle : y ≤ x) : y ≤ floorTo page x := by
  obtain ⟨k, rfl⟩ := hdvd
  rw [floorTo_eq]
  rcases Nat.eq_zero_or_pos page with rfl | hpage
  · simp
  · exact Nat.mul_le_mul_left page ((Nat.le_div_iff_mul_le hpage).mpr (by rwa [mul_comm]))

theorem floorTo_of_dvd (hdvd : page ∣ x) : floorTo page x = x :=
  Nat.le_antisymm (floorTo_le page x) (le_floorTo hdvd le_rfl)

theorem floorTo_mono (page : Nat) (hle : x ≤ y) : floorTo page x ≤ floorTo page y :=
  le_floorTo (dvd_floorTo page x) ((floorTo_le page x).trans hle)

theorem dvd_ceilTo (page x : Nat) : page ∣ ceilTo page x := dvd_floorTo page _

theorem le_ceilTo (hpage : 0 < page) (x : Nat) : x ≤ ceilTo page x := by
  have h := lt_floorTo_add hpage (x + page - 1)
  unfold ceilTo
  omega

theorem ceilTo_lt_add (hpage : 0 < page) (x : Nat) : ceilTo page x < x + page := by
  have h := floorTo_le page (x + page - 1)
  unfold ceilTo
  omega

/-- Two multiples of a page that are less than a page apart are in order. -/
theorem le_of_dvd_of_lt_add (hx : page ∣ x) (hy : page ∣ y) (hlt : x < y + page) : x ≤ y := by
  obtain ⟨j, rfl⟩ := hx
  obtain ⟨k, rfl⟩ := hy
  have hjk : page * j < page * (k + 1) := by rw [mul_add]; omega
  exact Nat.mul_le_mul_left page (Nat.lt_succ_iff.mp (Nat.lt_of_mul_lt_mul_left hjk))

theorem ceilTo_le {page x y : Nat} (hpage : 0 < page) (hdvd : page ∣ y) (hle : x ≤ y) : ceilTo page x ≤ y := by
  apply le_of_dvd_of_lt_add (dvd_ceilTo page x) hdvd
  have h := ceilTo_lt_add hpage x
  omega

theorem ceilTo_mono (hpage : 0 < page) (hle : x ≤ y) : ceilTo page x ≤ ceilTo page y :=
  ceilTo_le hpage (dvd_ceilTo page y) (hle.trans (le_ceilTo hpage y))

theorem ceilTo_of_dvd (hpage : 0 < page) (hdvd : page ∣ x) : ceilTo page x = x :=
  Nat.le_antisymm (ceilTo_le hpage hdvd le_rfl) (le_ceilTo hpage x)

/-- Positions of one slot are a ring apart. -/
theorem mod_injOn_window {ring lo a b : Nat} (ha : lo ≤ a) (ha' : a < lo + ring) (hb : lo ≤ b)
    (hb' : b < lo + ring) (h : a % ring = b % ring) : a = b :=
  Nat.mod_injOn_Ico lo ring (by simpa using ⟨ha, ha'⟩) (by simpa using ⟨hb, hb'⟩) h

theorem mod_add_of_lt {ring p i : Nat} (hi : p % ring + i < ring) : (p + i) % ring = p % ring + i := by
  rw [Nat.add_mod, Nat.mod_eq_of_lt (a := i) (by omega), Nat.mod_eq_of_lt hi]

/-- `count` flags from `first` set to `value`. -/
def setRun (flags : List Bool) (first count : Nat) (value : Bool) : List Bool :=
  flags.mapIdx fun i flag => if first ≤ i ∧ i < first + count then value else flag

@[simp] theorem setRun_length (flags : List Bool) (first count : Nat) (value : Bool) :
    (setRun flags first count value).length = flags.length := by
  simp [setRun]

theorem setRun_inside {i : Nat} (value : Bool) (hlen : i < flags.length)
    (hi : first ≤ i ∧ i < first + count) : (setRun flags first count value)[i]? = some value := by
  simp [setRun, getElem?_eq_getElem hlen, hi]

theorem setRun_outside {i : Nat} (value : Bool)
    (hi : ¬ (first ≤ i ∧ i < first + count)) : (setRun flags first count value)[i]? = flags[i]? := by
  cases h : flags[i]? <;> simp [setRun, h, hi]

def runIs (flags : List Bool) (first count : Nat) (value : Bool) : Bool :=
  ((flags.drop first).take count).all (· == value)

theorem runIs_of_forall {value : Bool}
    (h : ∀ i < count, flags[first + i]? = some value) : runIs flags first count value = true := by
  unfold runIs
  rw [all_eq_true]
  intro flag hflag
  obtain ⟨i, hi⟩ := getElem?_of_mem hflag
  rw [getElem?_take] at hi
  by_cases hlt : i < count
  · rw [if_pos hlt, getElem?_drop, h i hlt] at hi
    rw [Option.some.inj hi]
    exact beq_self_eq_true flag
  · rw [if_neg hlt] at hi
    simp at hi

/-- The slots of the window `[lo, hi)` are set, those of the rest of the ring are clear. -/
structure Covers (slots lo hi : Nat) (flags : List Bool) : Prop where
  size : flags.length = slots
  ordered : lo ≤ hi
  short : hi ≤ lo + slots
  inside : ∀ p, lo ≤ p → p < hi → flags[p % slots]? = some true
  outside : ∀ p, hi ≤ p → p < lo + slots → flags[p % slots]? = some false

namespace Covers

variable {slots lo hi run : Nat} {flags : List Bool}

theorem empty (slots lo : Nat) (hslots : 0 < slots) : Covers slots lo lo (List.replicate slots false) := by
  refine ⟨length_replicate, le_rfl, Nat.le_add_right lo slots, ?_, ?_⟩
  · intro p hle hlt
    omega
  · intro p _ _
    rw [getElem?_replicate, if_pos (Nat.mod_lt p hslots)]

/-- Slots a run of the ring names, seen from the window's side. -/
theorem slot_in_run_iff (hwrap : hi % slots + run ≤ slots) {p : Nat} (hp : lo ≤ p) (hp' : p < lo + slots)
    (hlo : lo ≤ hi) (hroom : hi + run ≤ lo + slots) :
    (hi % slots ≤ p % slots ∧ p % slots < hi % slots + run) ↔ (hi ≤ p ∧ p < hi + run) := by
  constructor
  · intro h
    have hslot : (hi + (p % slots - hi % slots)) % slots = p % slots := by
      rw [mod_add_of_lt (by omega)]
      omega
    have heq := mod_injOn_window (by omega) (by omega) hp hp' hslot
    omega
  · intro h
    have hslot : p % slots = hi % slots + (p - hi) := by
      rw [← @mod_add_of_lt slots hi (p - hi) (by omega), Nat.add_sub_cancel' h.1]
    omega

/-- The run above the window is clear. -/
theorem above_clear (h : Covers slots lo hi flags) (hwrap : hi % slots + run ≤ slots)
    (hroom : hi + run ≤ lo + slots) : runIs flags (hi % slots) run false = true := by
  apply runIs_of_forall
  intro i hi'
  rw [← mod_add_of_lt (by omega)]
  exact h.outside (hi + i) (by omega) (by omega)

theorem raise (h : Covers slots lo hi flags) (hwrap : hi % slots + run ≤ slots)
    (hroom : hi + run ≤ lo + slots) : Covers slots lo (hi + run) (setRun flags (hi % slots) run true) := by
  have hord := h.ordered
  refine ⟨by rw [setRun_length, h.size], by omega, hroom, ?_, ?_⟩
  · intro p hlo hlt
    have hiff := slot_in_run_iff hwrap hlo (by omega) hord hroom
    by_cases hp : hi ≤ p
    · apply setRun_inside true _ (hiff.mpr ⟨hp, hlt⟩)
      rw [h.size]
      exact Nat.mod_lt p (by omega)
    · rw [setRun_outside true (fun hc => hp (hiff.mp hc).1)]
      exact h.inside p hlo (by omega)
  · intro p hle hlt
    have hiff := slot_in_run_iff hwrap (by omega) hlt hord hroom
    rw [setRun_outside true (fun hc => by have := (hiff.mp hc).2; omega)]
    exact h.outside p (by omega) hlt

/-- The run at the foot of the window is set. -/
theorem foot_set (h : Covers slots lo hi flags) (hwrap : lo % slots + run ≤ slots) (hroom : lo + run ≤ hi) :
    runIs flags (lo % slots) run true = true := by
  apply runIs_of_forall
  intro i hi'
  rw [← mod_add_of_lt (by have := h.short; omega)]
  exact h.inside (lo + i) (by omega) (by omega)

theorem lower (h : Covers slots lo hi flags) (hwrap : lo % slots + run ≤ slots) (hroom : lo + run ≤ hi) :
    Covers slots (lo + run) hi (setRun flags (lo % slots) run false) := by
  have hshort := h.short
  refine ⟨by rw [setRun_length, h.size], hroom, by omega, ?_, ?_⟩
  · intro p hle hlt
    have hiff := @slot_in_run_iff _ lo _ _ hwrap p (by omega) (by omega) le_rfl (by omega)
    rw [setRun_outside false (fun hc => by have := (hiff.mp hc).2; omega)]
    exact h.inside p (by omega) hlt
  · intro p hle hlt
    -- a position past the old ring window has the slot of a released one
    by_cases hp : p < lo + slots
    · have hiff := @slot_in_run_iff _ lo _ _ hwrap p (by omega) hp le_rfl (by omega)
      rw [setRun_outside false (fun hc => by have := (hiff.mp hc).2; omega)]
      exact h.outside p hle hp
    · have hslot : p % slots = (p - slots) % slots := Nat.mod_eq_sub_mod (by omega)
      have hiff := @slot_in_run_iff _ lo _ _ hwrap (p - slots) (by omega) (by omega) le_rfl (by omega)
      rw [hslot]
      apply setRun_inside false _ (hiff.mpr ⟨by omega, by omega⟩)
      rw [h.size]
      exact Nat.mod_lt _ (by omega)

end Covers

/-- The intervals, as start and length, follow each other without a gap from `lo` to `hi`. -/
def Tiles : Nat → List (Nat × Nat) → Nat → Prop
  | lo, [], hi => lo = hi
  | lo, piece :: pieces, hi => piece.1 = lo ∧ 0 < piece.2 ∧ Tiles (lo + piece.2) pieces hi

namespace Tiles

variable {lo hi : Nat} {xs : List (Nat × Nat)}

theorem append {mid : Nat} {ys : List (Nat × Nat)} (hxs : Tiles lo xs mid) (hys : Tiles mid ys hi) :
    Tiles lo (xs ++ ys) hi := by
  induction xs generalizing lo with
  | nil =>
    cases hxs
    exact hys
  | cons piece xs ih => exact ⟨hxs.1, hxs.2.1, ih hxs.2.2⟩

theorem le (h : Tiles lo xs hi) : lo ≤ hi := by
  induction xs generalizing lo with
  | nil => exact Nat.le_of_eq h
  | cons piece xs ih =>
    have hle := ih h.2.2
    omega

theorem mem_bounds (h : Tiles lo xs hi) : ∀ piece ∈ xs, lo ≤ piece.1 ∧ piece.1 + piece.2 ≤ hi := by
  induction xs generalizing lo with
  | nil =>
    intro piece hmem
    cases hmem
  | cons first xs ih =>
    intro piece hmem
    obtain ⟨hstart, hpos, hrest⟩ := h
    rcases mem_cons.mp hmem with rfl | hmem
    · have hle := hrest.le
      omega
    · have hbounds := ih hrest piece hmem
      omega

/-- A later interval starts where an earlier one ended, or above. -/
theorem pairwise (h : Tiles lo xs hi) : xs.Pairwise fun x y => x.1 + x.2 ≤ y.1 := by
  induction xs generalizing lo with
  | nil => exact List.Pairwise.nil
  | cons first xs ih =>
    obtain ⟨hstart, hpos, hrest⟩ := h
    refine pairwise_cons.mpr ⟨?_, ih hrest⟩
    intro piece hmem
    have hbounds := hrest.mem_bounds piece hmem
    omega

end Tiles

end Lib
