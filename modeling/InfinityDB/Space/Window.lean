import InfinityDB.Space.AddressSpace

/-!
# What one call does to the window

`Settled` is the invariant of a life. One lemma per function says what the function returns in a
settled state; the debug assertions it passes are discharged on the way, so the lemmas hold in both
builds. The count of pending hole marks is the one assertion that is not structural.
-/

namespace InfinityDB.Space

open Lib Option

variable {cond : Prop}

theorem check_pos [Decidable cond] (h : cond) : check cond = some () := if_pos h

theorem check_eq_some [Decidable cond] {u : Unit} : check cond = some u ↔ cond := by
  unfold check
  split <;> simp_all

theorem debugCheck_pos {debug : Bool} [Decidable cond] (h : cond) :
    debugCheck debug cond = some () := if_neg fun hc => hc.2 h

private theorem debugCheck_release [Decidable cond] : debugCheck false cond = some () :=
  if_neg fun hc => Bool.noConfusion hc.1

namespace LogicalAddr

theorem fromRaw_eq_some {raw : Nat} {addr : LogicalAddr} (h : fromRaw raw = some addr) : addr.raw = raw := by
  unfold fromRaw at h
  split at h
  · cases h
    rfl
  · cases h

theorem fromRaw_isSome_iff {raw : Nat} : (fromRaw raw).isSome ↔ raw ≤ maxRaw := by
  unfold fromRaw
  split <;> simp_all

end LogicalAddr

theorem IsPow2.exists_eq {n : Nat} (h : IsPow2 n) : ∃ k, n = 2 ^ k := by
  exact (Nat.and_sub_one_eq_zero_iff_isPowerOfTwo h.1).mp h.2

theorem pow2_dvd_pow2 {a b : Nat} (ha : ∃ k, a = 2 ^ k) (hb : ∃ k, b = 2 ^ k) (hle : a ≤ b) : a ∣ b := by
  obtain ⟨j, rfl⟩ := ha
  obtain ⟨k, rfl⟩ := hb
  exact Nat.pow_dvd_pow 2 ((Nat.pow_le_pow_iff_right (by decide)).mp hle)

section Runs

variable {slots lo hi page top : Nat} {r : Region}

theorem Region.commitPages_above {run : Nat} (hcov : Covers slots lo page r.committed) (hrun : 0 < run)
    (hwrap : page % slots + run ≤ slots) (hroom : page + run ≤ lo + slots) :
    r.commitPages (page % slots) run = some { r with committed := setRun r.committed (page % slots) run true } := by
  unfold Region.commitPages Region.pages
  rw [if_neg (by omega), if_neg (by rw [hcov.size]; omega), if_pos (hcov.above_clear hwrap hroom)]

theorem Region.decommitPages_foot {run : Nat} (hcov : Covers slots page hi r.committed) (hrun : 0 < run)
    (hwrap : page % slots + run ≤ slots) (hroom : page + run ≤ hi) : r.decommitPages (page % slots) run =
      some { r with committed := setRun r.committed (page % slots) run false } := by
  unfold Region.decommitPages Region.pages
  rw [if_neg (by omega), if_neg (by rw [hcov.size]; omega), if_pos (hcov.foot_set hwrap hroom)]

/-- One turn's run is not empty and stops at the wrap. -/
private theorem run_bounds (hslots : 0 < slots) (hlt : page < top) : 0 < min (top - page) (slots - page % slots) ∧
      page % slots + min (top - page) (slots - page % slots) ≤ slots ∧
      page + min (top - page) (slots - page % slots) ≤ top := by
  have hmod := Nat.mod_lt page hslots
  omega

variable {k turns : Nat}

private theorem and_slots (hpow : slots = 2 ^ k) (page : Nat) : page &&& (slots - 1) = page % slots := by
  rw [hpow, Nat.and_two_pow_sub_one_eq_mod]

/-- Whatever every run keeps holds at the top. -/
theorem ringRuns_rule {apply : Region → Nat → Nat → Option Region} (P : Nat → Region → Prop) (hpow : slots = 2 ^ k)
    (hstep : ∀ page r run, P page r → 0 < run → page % slots + run ≤ slots → page + run ≤ top →
      ∃ r', apply r (page % slots) run = some r' ∧ P (page + run) r')
    (hP : P page r) (hle : page ≤ top) (hturns : top - page ≤ turns) :
    ∃ r', AddressSpace.ringRuns apply slots top turns page r = some r' ∧ P top r' := by
  have hslots : 0 < slots := by rw [hpow]; exact Nat.two_pow_pos k
  induction turns generalizing page r with
  | zero =>
    have heq : page = top := by omega
    exact ⟨r, rfl, heq ▸ hP⟩
  | succ turns ih =>
    unfold AddressSpace.ringRuns
    by_cases hlt : page < top
    · obtain ⟨hrun, hwrap, hbelow⟩ := run_bounds hslots hlt
      obtain ⟨r', hr', hP'⟩ := hstep page r _ hP hrun hwrap hbelow
      rw [if_pos hlt]
      simp only [and_slots hpow]
      rw [hr']
      exact ih hP' hbelow (by omega)
    · have heq : page = top := by omega
      rw [if_neg hlt]
      exact ⟨r, rfl, heq ▸ hP⟩

private theorem ringRuns_commit (hpow : slots = 2 ^ k) (hcov : Covers slots lo page r.committed)
    (hle : page ≤ top) (hroom : top ≤ lo + slots) (hturns : top - page ≤ turns) :
    ∃ r', AddressSpace.ringRuns Region.commitPages slots top turns page r = some r' ∧
      Covers slots lo top r'.committed := by
  apply ringRuns_rule (fun page r => Covers slots lo page r.committed) hpow _ hcov hle hturns
  intro page r run hcov hrun hwrap hbelow
  exact ⟨_, Region.commitPages_above hcov hrun hwrap (by omega), hcov.raise hwrap (by omega)⟩

private theorem ringRuns_decommit (hpow : slots = 2 ^ k) (hcov : Covers slots page hi r.committed)
    (hle : page ≤ top) (hroom : top ≤ hi) (hturns : top - page ≤ turns) :
    ∃ r', AddressSpace.ringRuns Region.decommitPages slots top turns page r = some r' ∧
      Covers slots top hi r'.committed := by
  apply ringRuns_rule (fun page r => Covers slots page hi r.committed) hpow _ hcov hle hturns
  intro page r run hcov hrun hwrap hbelow
  exact ⟨_, Region.decommitPages_foot hcov hrun hwrap (by omega), hcov.lower hwrap (by omega)⟩

end Runs

/-- Sizes of the ring, its pages and the admission bound. -/
structure Shaped (s : AddressSpace) : Prop where
  page : ∃ k, s.pageBytes = 2 ^ k
  ring : ∃ k, s.ringBytes = 2 ^ k
  four : 4 * s.pageBytes ≤ s.ringBytes
  limit_dvd : s.pageBytes ∣ s.windowLimit
  limit_four : 4 * s.pageBytes ≤ s.windowLimit
  limit_le : s.windowLimit ≤ s.ringBytes

namespace Shaped

variable {s : AddressSpace} (h : Shaped s)

include h

theorem congr {s' : AddressSpace} (hpage : s'.pageBytes = s.pageBytes) (hring : s'.ringMask = s.ringMask)
    (hlimit : s'.windowLimit = s.windowLimit) : Shaped s' := by
  obtain ⟨page, ring, four, dvd, lower, upper⟩ := h
  constructor <;> simp only [AddressSpace.ringBytes, hpage, hring, hlimit] at * <;> assumption

theorem page_pos : 0 < s.pageBytes := by
  obtain ⟨k, hk⟩ := h.page
  rw [hk]
  exact Nat.two_pow_pos k

theorem page_dvd_ring : s.pageBytes ∣ s.ringBytes := by
  have hfour := h.four
  exact pow2_dvd_pow2 h.page h.ring (by omega)

theorem ringPages : ∃ k, s.ringBytes / s.pageBytes = 2 ^ k := by
  obtain ⟨j, hj⟩ := h.page
  obtain ⟨k, hk⟩ := h.ring
  have hdvd := h.page_dvd_ring
  rw [hj, hk] at hdvd ⊢
  exact ⟨k - j, Nat.pow_div ((Nat.pow_dvd_pow_iff_le_right (by decide)).mp hdvd) (by decide)⟩

theorem and_mask (x : Nat) : x &&& s.ringMask = x % s.ringBytes := by
  obtain ⟨k, hk⟩ := h.ring
  have hmask : s.ringMask = s.ringBytes - 1 := rfl
  rw [hmask, hk, Nat.and_two_pow_sub_one_eq_mod]

theorem pageFloor_eq (x : Nat) : s.pageFloor x = floorTo s.pageBytes x := by
  obtain ⟨k, hk⟩ := h.page
  unfold AddressSpace.pageFloor floorTo
  rw [hk, Nat.and_two_pow_sub_one_eq_mod]

theorem pageCeil_eq (x : Nat) : s.pageCeil x = ceilTo s.pageBytes x := h.pageFloor_eq _

end Shaped

/-- The watermark order, and addresses inside the space. -/
structure Ordered (s : AddressSpace) : Prop where
  origin_le : s.lifeOrigin ≤ s.head
  head_le : s.head ≤ s.flushed
  flushed_le : s.flushed ≤ s.roBoundary
  boundary_le : s.roBoundary ≤ s.tail
  tail_le : s.tail ≤ maxRaw

/-- The committed pages are those from the head's page to the tail's. -/
structure Backed (s : AddressSpace) : Prop where
  floor_eq : s.commitFloorRel = floorTo s.pageBytes (s.head - s.lifeOrigin)
  top_eq : s.commitTopRel = ceilTo s.pageBytes (s.tail - s.lifeOrigin)
  covers : Covers (s.ringBytes / s.pageBytes) (s.commitFloorRel / s.pageBytes) (s.commitTopRel / s.pageBytes)
    s.region.committed

/-- The head is at or below both pins. -/
structure Pinned (s : AddressSpace) : Prop where
  walk : ∀ pin ∈ s.walkPin, s.head ≤ pin.releaseCeiling
  record : ∀ p ∈ s.recordPin, s.head ≤ p

structure Settled (s : AddressSpace) : Prop where
  shaped : Shaped s
  ordered : Ordered s
  backed : Backed s
  pinned : Pinned s

namespace Settled

variable {s : AddressSpace} (h : Settled s)

include h

theorem floor_le_head : s.commitFloorRel ≤ s.head - s.lifeOrigin := by
  rw [h.backed.floor_eq]
  exact floorTo_le _ _

theorem tail_le_top : s.tail - s.lifeOrigin ≤ s.commitTopRel := by
  rw [h.backed.top_eq]
  exact le_ceilTo h.shaped.page_pos _

theorem floor_dvd : s.pageBytes ∣ s.commitFloorRel := h.backed.floor_eq ▸ dvd_floorTo _ _

theorem top_dvd : s.pageBytes ∣ s.commitTopRel := h.backed.top_eq ▸ dvd_ceilTo _ _

theorem top_le : s.commitTopRel ≤ s.commitFloorRel + s.ringBytes := by
  have hshort := h.backed.covers.short
  rw [← Nat.add_div_of_dvd_right h.floor_dvd] at hshort
  have hmul := Nat.mul_le_mul_left s.pageBytes hshort
  rwa [Nat.mul_div_cancel' h.top_dvd, Nat.mul_div_cancel' (Nat.dvd_add h.floor_dvd h.shaped.page_dvd_ring)] at hmul

end Settled

section Pages

variable {debug : Bool} {s : AddressSpace}

/-- Between page boundaries the assertions of a ring walk hold. -/
theorem forEachRingRun_eq {fromRel toRel : Nat} {apply : Region → Nat → Nat → Option Region} (h : Shaped s)
    (hfrom : s.pageBytes ∣ fromRel) (hto : s.pageBytes ∣ toRel) (hspan : toRel - fromRel ≤ s.ringBytes) :
    s.forEachRingRun debug fromRel toRel apply =
      (AddressSpace.ringRuns apply (s.ringBytes / s.pageBytes) (toRel / s.pageBytes)
        (toRel / s.pageBytes - fromRel / s.pageBytes) (fromRel / s.pageBytes) s.region).map
        fun region => { s with region } := by
  unfold AddressSpace.forEachRingRun
  rw [debugCheck_pos (by rw [h.pageFloor_eq]; exact (floorTo_of_dvd hfrom).symm),
    debugCheck_pos (by rw [h.pageFloor_eq]; exact (floorTo_of_dvd hto).symm), debugCheck_pos hspan]
  exact map_eq_bind.symm

theorem commitTo_spec {topRel : Nat} (h : Settled s) (hdvd : s.pageBytes ∣ topRel) (hle : s.commitTopRel ≤ topRel)
    (hroom : topRel ≤ s.commitFloorRel + s.ringBytes) :
    ∃ region, s.commitTo debug topRel = some { s with region, commitTopRel := topRel } ∧
      Covers (s.ringBytes / s.pageBytes) (s.commitFloorRel / s.pageBytes) (topRel / s.pageBytes) region.committed := by
  unfold AddressSpace.commitTo
  by_cases hlt : s.commitTopRel < topRel
  · obtain ⟨k, hk⟩ := h.shaped.ringPages
    have hpages : topRel / s.pageBytes ≤ s.commitFloorRel / s.pageBytes + s.ringBytes / s.pageBytes := by
      rw [← Nat.add_div_of_dvd_right h.floor_dvd]
      exact Nat.div_le_div_right hroom
    obtain ⟨region, hruns, hcov⟩ :=
      ringRuns_commit hk h.backed.covers (Nat.div_le_div_right hle) hpages le_rfl
    have hfloor := h.floor_le_head
    have htop := h.tail_le_top
    have hord := h.ordered
    have hheadTail : s.head ≤ s.tail := hord.head_le.trans (hord.flushed_le.trans hord.boundary_le)
    refine ⟨region, ?_, hcov⟩
    unfold AddressSpace.commitRelPages
    rw [if_pos hlt, forEachRingRun_eq h.shaped h.top_dvd hdvd (by omega), hruns]
    rfl
  · have heq : s.commitTopRel = topRel := by omega
    subst heq
    rw [if_neg hlt]
    exact ⟨s.region, rfl, h.backed.covers⟩

theorem releaseTo_spec {newFloorRel : Nat} (h : Shaped s) (hfloor : s.pageBytes ∣ s.commitFloorRel)
    (hdvd : s.pageBytes ∣ newFloorRel) (hle : s.commitFloorRel ≤ newFloorRel) (htop : newFloorRel ≤ s.commitTopRel)
    (hspan : newFloorRel - s.commitFloorRel ≤ s.ringBytes)
    (hcov : Covers (s.ringBytes / s.pageBytes) (s.commitFloorRel / s.pageBytes) (s.commitTopRel / s.pageBytes)
      s.region.committed) :
    ∃ region, s.releaseTo debug newFloorRel = some { s with region, commitFloorRel := newFloorRel } ∧
      Covers (s.ringBytes / s.pageBytes) (newFloorRel / s.pageBytes) (s.commitTopRel / s.pageBytes)
        region.committed := by
  unfold AddressSpace.releaseTo
  by_cases hlt : s.commitFloorRel < newFloorRel
  · obtain ⟨k, hk⟩ := h.ringPages
    obtain ⟨region, hruns, hcov'⟩ :=
      ringRuns_decommit hk hcov (Nat.div_le_div_right hle) (Nat.div_le_div_right htop) le_rfl
    refine ⟨region, ?_, hcov'⟩
    unfold AddressSpace.decommitRelPages
    rw [if_pos hlt, forEachRingRun_eq h hfloor hdvd hspan, hruns]
    rfl
  · have heq : s.commitFloorRel = newFloorRel := by omega
    subst heq
    rw [if_neg hlt]
    exact ⟨s.region, rfl, hcov⟩

end Pages

/-- What a prospect of a settled state promises. -/
structure Prospect.Placed (s : AddressSpace) (len : Nat) (p : Prospect) : Prop where
  pos : 0 < len
  half : len ≤ s.ringBytes / 2
  len_eq : p.len = len
  start_eq : p.startRel = s.tail - s.lifeOrigin + p.hole
  whole : p.startRel % s.ringBytes + len ≤ s.ringBytes
  hole_lt : p.hole < len
  hole_top : 0 < p.hole → s.ringBytes ∣ p.startRel
  top_eq : p.topRel = ceilTo s.pageBytes (p.startRel + len)
  top_le : s.commitTopRel ≤ p.topRel

theorem prospect_eq_some {s : AddressSpace} {len : Nat} {p : Prospect} (h : s.prospect len = some p) :
    0 < len ∧ len ≤ s.ringBytes / 2 ∧ p = ⟨len, if s.ringBytes < ((s.tail - s.lifeOrigin) &&& s.ringMask) + len
          then s.ringBytes - ((s.tail - s.lifeOrigin) &&& s.ringMask) else 0, p.startRel, p.topRel⟩ ∧
      p.startRel = s.tail - s.lifeOrigin + p.hole ∧
      p.topRel = max (s.pageCeil (p.startRel + len)) s.commitTopRel := by
  obtain ⟨_, hpos, h⟩ := bind_eq_some_iff.mp h
  obtain ⟨_, hhalf, h⟩ := bind_eq_some_iff.mp h
  cases h
  exact ⟨check_eq_some.mp hpos, check_eq_some.mp hhalf, rfl, rfl, rfl⟩

theorem prospect_isSome {s : AddressSpace} {len : Nat} (hpos : 0 < len) (hhalf : len ≤ s.ringBytes / 2) :
    ∃ p, s.prospect len = some p := by
  unfold AddressSpace.prospect
  rw [check_pos hpos, check_pos hhalf]
  exact ⟨_, rfl⟩

theorem Settled.placed {s : AddressSpace} {len : Nat} {p : Prospect} (h : Settled s)
    (hp : s.prospect len = some p) : p.Placed s len := by
  obtain ⟨hpos, hhalf, heq, hstart, htop⟩ := prospect_eq_some hp
  have hring : 0 < s.ringBytes := Nat.succ_pos _
  rw [h.shaped.and_mask] at heq
  generalize hrel : s.tail - s.lifeOrigin = relTail at heq hstart
  have hmod := Nat.mod_lt relTail hring
  have hdiv := Nat.div_add_mod relTail s.ringBytes
  have hlen : p.len = len := congrArg Prospect.len heq
  have hhole : p.hole = if s.ringBytes < relTail % s.ringBytes + len then s.ringBytes - relTail % s.ringBytes else 0 :=
    congrArg Prospect.hole heq
  have htop' : p.topRel = ceilTo s.pageBytes (p.startRel + len) := by
    rw [htop, h.shaped.pageCeil_eq]
    apply Nat.max_eq_left
    rw [h.backed.top_eq]
    exact ceilTo_mono h.shaped.page_pos (by omega)
  have hle : s.commitTopRel ≤ p.topRel := by rw [htop]; exact Nat.le_max_right _ _
  by_cases hcross : s.ringBytes < relTail % s.ringBytes + len
  · rw [if_pos hcross] at hhole
    have hdvd : s.ringBytes ∣ p.startRel := by
      refine ⟨relTail / s.ringBytes + 1, ?_⟩
      rw [mul_add]
      omega
    refine ⟨hpos, hhalf, hlen, by rw [hstart, hrel], ?_, by omega, fun _ => hdvd, htop', hle⟩
    rw [Nat.mod_eq_zero_of_dvd hdvd]
    omega
  · rw [if_neg hcross] at hhole
    refine ⟨hpos, hhalf, hlen, by rw [hstart, hrel], ?_, by omega, fun hc => by omega, htop', hle⟩
    rw [hstart, hhole, add_zero]
    omega

section Placing

variable {debug : Bool} {s : AddressSpace} {len : Nat} {p : Prospect}

theorem fits_iff : s.fits p = true ↔ p.topRel - s.commitFloorRel ≤ s.windowLimit := decide_eq_true_iff

theorem startInside_eq_some {addr : LogicalAddr} (h : s.startInside p = some addr) :
    addr.raw = s.lifeOrigin + p.startRel ∧ s.lifeOrigin + p.startRel + p.len ≤ maxRaw := by
  obtain ⟨start, hstart, h⟩ := bind_eq_some_iff.mp h
  obtain ⟨stop, hstop, h⟩ := bind_eq_some_iff.mp h
  rw [← some.inj h]
  have hraw := LogicalAddr.fromRaw_eq_some hstart
  have hmax : start.raw + p.len ≤ maxRaw := LogicalAddr.fromRaw_isSome_iff.mp (isSome_of_eq_some hstop)
  omega

theorem markHole_eq (hspare : debug = true → s.holeMarks.length < 3) : s.markHole debug len =
      some { s with deadBytes := s.deadBytes + len, holeMarks := s.holeMarks ++ [(s.tail, len)] } := by
  unfold AddressSpace.markHole
  dsimp only
  cases debug with
  | false => rw [debugCheck_release]; rfl
  | true =>
    have hlt := hspare rfl
    rw [debugCheck_pos (by rw [List.length_append, List.length_singleton]; omega)]
    rfl

theorem assertWatermarkOrder_eq (h : Settled s) : s.assertWatermarkOrder debug = some () := by
  have htop := h.top_le
  unfold AddressSpace.assertWatermarkOrder
  rw [debugCheck_pos h.ordered.origin_le, debugCheck_pos h.ordered.head_le, debugCheck_pos h.ordered.flushed_le,
    debugCheck_pos h.ordered.boundary_le, debugCheck_pos (by omega)]
  rfl

/-- A tail moved up over committed pages. -/
theorem Settled.grown {region : Region} {topRel dead tail : Nat} {marks : List (Nat × Nat)} (h : Settled s)
    (htail : s.tail ≤ tail) (hmax : tail ≤ maxRaw) (htop : topRel = ceilTo s.pageBytes (tail - s.lifeOrigin))
    (hcov : Covers (s.ringBytes / s.pageBytes) (s.commitFloorRel / s.pageBytes) (topRel / s.pageBytes)
      region.committed) :
    Settled { s with region, commitTopRel := topRel, deadBytes := dead, holeMarks := marks, tail } where
  shaped := h.shaped.congr rfl rfl rfl
  ordered := { h.ordered with boundary_le := h.ordered.boundary_le.trans htail, tail_le := hmax }
  backed := ⟨h.backed.floor_eq, htop, hcov⟩
  pinned := ⟨h.pinned.walk, h.pinned.record⟩

/-- A prospect that fits ends inside the ring above the floor. -/
theorem Settled.fits_le_ring (h : Settled s) (hfits : s.fits p = true) : p.topRel ≤ s.commitFloorRel + s.ringBytes := by
  have hle := fits_iff.mp hfits
  have hlimit := h.shaped.limit_le
  omega

/-- Marks a placement of the prospect adds. -/
def Prospect.marks (s : AddressSpace) (p : Prospect) : List (Nat × Nat) := if 0 < p.hole then [(s.tail, p.hole)] else []

theorem alloc_placed {addr : LogicalAddr} (h : Settled s) (hspare : debug = true → s.holeMarks.length < 3)
    (hp : s.prospect len = some p) (hfits : s.fits p = true) (hinside : s.startInside p = some addr) :
    ∃ s', s.alloc debug len = some (s', some addr) ∧ Settled s' ∧ s'.holeMarks = s.holeMarks ++ p.marks s ∧
      s'.tail = s.lifeOrigin + p.startRel + p.len ∧ s'.lifeOrigin = s.lifeOrigin ∧ s'.ringMask = s.ringMask ∧
      s'.head = s.head := by
  have hplaced := h.placed hp
  obtain ⟨hraw, hmax⟩ := startInside_eq_some hinside
  have horigin : s.lifeOrigin ≤ s.tail :=
    h.ordered.origin_le.trans (h.ordered.head_le.trans (h.ordered.flushed_le.trans h.ordered.boundary_le))
  have hstart := hplaced.start_eq
  have hlen := hplaced.len_eq
  obtain ⟨region, hcommit, hcov⟩ := @commitTo_spec debug s p.topRel h (hplaced.top_eq ▸ dvd_ceilTo _ _)
    hplaced.top_le (h.fits_le_ring hfits)
  have htop : p.topRel = ceilTo s.pageBytes (s.lifeOrigin + p.startRel + p.len - s.lifeOrigin) := by
    rw [hplaced.top_eq, hlen, add_assoc, Nat.add_sub_cancel_left]
  have hgrown : ∀ dead marks, Settled { s with
      region, commitTopRel := p.topRel, deadBytes := dead, holeMarks := marks,
      tail := s.lifeOrigin + p.startRel + p.len } :=
    fun _ _ => h.grown (by omega) hmax htop hcov
  unfold AddressSpace.alloc
  rw [hp, bind_eq_bind, bind_some, if_pos hfits, hinside]
  dsimp only
  rw [hcommit, bind_eq_bind, bind_some]
  unfold AddressSpace.sealTop
  by_cases hhole : 0 < p.hole
  · have hmark := @markHole_eq debug { s with region, commitTopRel := p.topRel } p.hole hspare
    rw [if_pos hhole, hmark, bind_eq_bind, bind_some]
    dsimp only
    rw [assertWatermarkOrder_eq (hgrown _ _)]
    refine ⟨_, rfl, hgrown _ _, ?_, rfl, rfl, rfl, rfl⟩
    rw [Prospect.marks, if_pos hhole]
  · rw [if_neg hhole, bind_eq_bind, bind_some]
    dsimp only
    rw [assertWatermarkOrder_eq (hgrown _ _)]
    refine ⟨_, rfl, hgrown _ _, ?_, rfl, rfl, rfl, rfl⟩
    rw [Prospect.marks, if_neg hhole, List.append_nil]

end Placing

end InfinityDB.Space
