import InfinityDB.Space.Window

/-!
# The room question

`room` and `alloc` decide on one prospect. An answer `Fits` is an allocation that succeeds, and an
answer `Pad` is a target the tail can be moved to as it stands.
-/

namespace InfinityDB.Space

open Lib Option

section Answers

variable {debug : Bool} {s : AddressSpace} {len : Nat} {p : Prospect}

theorem Settled.origin_le_tail (h : Settled s) : s.lifeOrigin ≤ s.tail :=
  h.ordered.origin_le.trans (h.ordered.head_le.trans (h.ordered.flushed_le.trans h.ordered.boundary_le))

/-- A record that fits the window is not longer than it. -/
theorem Settled.len_le_of_fits (h : Settled s) (hp : p.Placed s len) (hfits : s.fits p = true) :
    p.len ≤ s.windowLimit := by
  have hle := fits_iff.mp hfits
  have htop := le_ceilTo h.shaped.page_pos (p.startRel + len)
  have hfloor := h.floor_le_head
  have htail := h.ordered.head_le.trans (h.ordered.flushed_le.trans h.ordered.boundary_le)
  rw [← hp.top_eq] at htop
  have hstart := hp.start_eq
  have hlen := hp.len_eq
  omega

theorem classify_fits_iff (h : Settled s) (hp : p.Placed s len) :
    s.classify debug p = some .fits ↔ s.fits p = true ∧ (s.startInside p).isSome := by
  unfold AddressSpace.classify
  constructor
  · intro hclass
    split at hclass
    · cases hclass
    rename_i hinside
    push Not at hinside
    split at hclass
    next hfits => exact ⟨hfits, isSome_iff_ne_none.mpr fun hn => hinside.1 (by rw [hn]; rfl)⟩
    rename_i hfits
    exfalso
    obtain ⟨_, _, hclass⟩ := bind_eq_some_iff.mp hclass
    split at hclass
    · obtain ⟨_, _, hclass⟩ := map_eq_some_iff.mp hclass
      cases hclass
    obtain ⟨_, _, hclass⟩ := bind_eq_some_iff.mp hclass
    split at hclass
    · obtain ⟨_, _, hclass⟩ := bind_eq_some_iff.mp hclass
      obtain ⟨_, _, hclass⟩ := bind_eq_some_iff.mp hclass
      obtain ⟨_, _, hclass⟩ := bind_eq_some_iff.mp hclass
      split at hclass
      · obtain ⟨_, _, hclass⟩ := map_eq_some_iff.mp hclass
        cases hclass
      · obtain ⟨_, _, hclass⟩ := bind_eq_some_iff.mp hclass
        obtain ⟨_, _, hclass⟩ := map_eq_some_iff.mp hclass
        cases hclass
    · obtain ⟨_, _, hclass⟩ := map_eq_some_iff.mp hclass
      cases hclass
  · rintro ⟨hfits, hinside⟩
    have hlen := h.len_le_of_fits hp hfits
    obtain ⟨addr, haddr⟩ := isSome_iff_exists.mp hinside
    rw [if_neg (by rw [haddr]; simp; omega), if_pos hfits]

/-- `alloc` places exactly what `room` says fits. -/
theorem room_fits_iff_alloc (h : Settled s) (hspare : debug = true → s.holeMarks.length < 3) :
    s.room debug len = some .fits ↔ ∃ s' addr, s.alloc debug len = some (s', some addr) := by
  constructor
  · intro hroom
    obtain ⟨p, hp, hclass⟩ := bind_eq_some_iff.mp hroom
    obtain ⟨hfits, hinside⟩ := (classify_fits_iff h (h.placed hp)).mp hclass
    obtain ⟨addr, haddr⟩ := isSome_iff_exists.mp hinside
    obtain ⟨s', hs', _⟩ := alloc_placed h hspare hp hfits haddr
    exact ⟨s', addr, hs'⟩
  · rintro ⟨s', addr, halloc⟩
    obtain ⟨p, hp, halloc⟩ := bind_eq_some_iff.mp halloc
    unfold AddressSpace.room
    rw [hp, bind_eq_bind, bind_some]
    apply (classify_fits_iff h (h.placed hp)).mpr
    split at halloc
    next hfits =>
      refine ⟨hfits, ?_⟩
      split at halloc
      · cases halloc
      rename_i start hstart
      rw [hstart]
      rfl
    · cases halloc

theorem alloc_refused {s' : AddressSpace} (halloc : s.alloc debug len = some (s', none)) : s' = s := by
  obtain ⟨p, hp, halloc⟩ := bind_eq_some_iff.mp halloc
  split at halloc
  · split at halloc
    · cases halloc
      rfl
    · obtain ⟨_, _, halloc⟩ := bind_eq_some_iff.mp halloc
      obtain ⟨_, _, halloc⟩ := bind_eq_some_iff.mp halloc
      obtain ⟨_, _, halloc⟩ := bind_eq_some_iff.mp halloc
      cases halloc
  · cases halloc
    rfl

/-- A pad target: above the tail, on a page boundary, in the tail's turn of the ring. -/
structure PadTarget.Answers (s : AddressSpace) (t : PadTarget) : Prop where
  tail_eq : t.tail.raw = s.tail
  above : s.tail < t.dest.raw
  aligned : s.pageBytes ∣ t.dest.raw - s.lifeOrigin
  half : t.dest.raw - s.tail ≤ s.ringBytes / 2
  whole : (s.tail - s.lifeOrigin) % s.ringBytes + (t.dest.raw - s.tail) ≤ s.ringBytes

/-- The next multiple of the ring, or of a page of it, is in the same turn. -/
theorem Settled.same_turn (h : Settled s) {rel : Nat} :
    rel % s.ringBytes + (ceilTo s.pageBytes rel - rel) ≤ s.ringBytes := by
  have hmod : rel % s.ringBytes < s.ringBytes := Nat.mod_lt _ (Nat.succ_pos _)
  have hdiv := Nat.div_add_mod rel s.ringBytes
  have hle : rel ≤ s.ringBytes * (rel / s.ringBytes + 1) := by rw [mul_add]; omega
  have hceil := ceilTo_le h.shaped.page_pos (h.shaped.page_dvd_ring.mul_right _) hle
  rw [mul_add] at hceil
  omega

theorem Settled.answers_ringTop (h : Settled s) (hp : p.Placed s len) (hhole : 0 < p.hole)
    {dest tail : LogicalAddr} {kind : PadKind} (htail : tail.raw = s.tail) (hdest : dest.raw = s.lifeOrigin + p.startRel) :
    PadTarget.Answers s ⟨dest, tail, kind⟩ := by
  have horigin := h.origin_le_tail
  have hstart := hp.start_eq
  have hlt := hp.hole_lt
  have hhalf := hp.half
  have hdvd := hp.hole_top hhole
  have hrel : dest.raw - s.lifeOrigin = p.startRel := by omega
  have hmod : (s.tail - s.lifeOrigin) % s.ringBytes < s.ringBytes := Nat.mod_lt _ (Nat.succ_pos _)
  refine ⟨htail, by dsimp only; omega, ?_, by dsimp only; omega, ?_⟩
  · dsimp only
    rw [hrel]
    exact h.shaped.page_dvd_ring.trans hdvd
  · have hturn : s.ringBytes ∣ (s.tail - s.lifeOrigin) % s.ringBytes + p.hole := by
      rw [hstart] at hdvd
      exact (Nat.dvd_iff_mod_eq_zero).mpr (by rw [Nat.mod_add_mod]; exact Nat.mod_eq_zero_of_dvd hdvd)
    dsimp only
    have hle := le_of_dvd_of_lt_add hturn (dvd_refl s.ringBytes) (by omega)
    omega

theorem Settled.answers_page (h : Settled s) (hp : p.Placed s len) (hhole : p.hole = 0)
    (hlimit : len ≤ s.windowLimit) (hneed : ¬ p.topRel - s.windowLimit ≤ s.tail - s.lifeOrigin)
    {dest tail : LogicalAddr} {kind : PadKind} (htail : tail.raw = s.tail)
    (hdest : dest.raw = s.lifeOrigin + s.pageCeil (s.tail - s.lifeOrigin)) :
    PadTarget.Answers s ⟨dest, tail, kind⟩ := by
  have horigin := h.origin_le_tail
  have hpos := h.shaped.page_pos
  have hfour := h.shaped.four
  have hstart := hp.start_eq
  have htop := hp.top_eq
  have hturn := @Settled.same_turn s h (s.tail - s.lifeOrigin)
  rw [h.shaped.pageCeil_eq] at hdest
  have hle := le_ceilTo hpos (s.tail - s.lifeOrigin)
  have hlt := ceilTo_lt_add hpos (s.tail - s.lifeOrigin)
  -- on a page boundary already, the record would have to be longer than the window
  have hne : ceilTo s.pageBytes (s.tail - s.lifeOrigin) ≠ s.tail - s.lifeOrigin := by
    intro heq
    have hdvd : s.pageBytes ∣ s.tail - s.lifeOrigin + s.windowLimit :=
      Nat.dvd_add (heq ▸ dvd_ceilTo _ _) h.shaped.limit_dvd
    have hceil := @ceilTo_le s.pageBytes (p.startRel + len) _ hpos hdvd (by omega)
    omega
  refine ⟨htail, by dsimp only; omega, ?_, by dsimp only; omega, by dsimp only; omega⟩
  have hrel : dest.raw - s.lifeOrigin = ceilTo s.pageBytes (s.tail - s.lifeOrigin) := by omega
  dsimp only
  rw [hrel]
  exact dvd_ceilTo _ _

theorem room_pad (h : Settled s) {t : PadTarget} (hroom : s.room debug len = some (.pad t)) : t.Answers s := by
  obtain ⟨p, hp, hclass⟩ := bind_eq_some_iff.mp hroom
  have hplaced := h.placed hp
  unfold AddressSpace.classify at hclass
  split at hclass
  · cases hclass
  rename_i hinside
  push Not at hinside
  split at hclass
  · cases hclass
  obtain ⟨_, _, hclass⟩ := bind_eq_some_iff.mp hclass
  split at hclass
  · obtain ⟨_, _, hclass⟩ := map_eq_some_iff.mp hclass
    cases hclass
  rename_i hneed
  obtain ⟨tail, htail, hclass⟩ := bind_eq_some_iff.mp hclass
  split at hclass
  next hhole =>
    obtain ⟨pad, hpad, hclass⟩ := bind_eq_some_iff.mp hclass
    obtain ⟨_, _, hclass⟩ := bind_eq_some_iff.mp hclass
    obtain ⟨_, _, hclass⟩ := bind_eq_some_iff.mp hclass
    split at hclass
    · obtain ⟨dest, hdest, hclass⟩ := map_eq_some_iff.mp hclass
      cases hclass
      exact h.answers_ringTop hplaced hhole (LogicalAddr.fromRaw_eq_some htail) (LogicalAddr.fromRaw_eq_some hdest)
    · obtain ⟨_, _, hclass⟩ := bind_eq_some_iff.mp hclass
      obtain ⟨_, _, hclass⟩ := map_eq_some_iff.mp hclass
      cases hclass
  next hhole =>
    obtain ⟨dest, hdest, hclass⟩ := map_eq_some_iff.mp hclass
    cases hclass
    exact h.answers_page hplaced (by omega) (hplaced.len_eq ▸ hinside.2) hneed
      (LogicalAddr.fromRaw_eq_some htail) (LogicalAddr.fromRaw_eq_some hdest)

/-- The prospect of a pad is the pad. -/
theorem Settled.pad_prospect (h : Settled s) {t : PadTarget} (ht : t.Answers s) :
    ∃ pad, s.prospect (t.dest.raw - s.tail) = some pad ∧ pad.hole = 0 ∧
      pad.topRel = t.dest.raw - s.lifeOrigin ∧ pad.Placed s (t.dest.raw - s.tail) := by
  have habove := ht.above
  obtain ⟨pad, hpad⟩ := @prospect_isSome s (t.dest.raw - s.tail) (by omega) ht.half
  have hplaced := h.placed hpad
  have hhole : pad.hole = 0 := by
    obtain ⟨_, _, heq, _⟩ := prospect_eq_some hpad
    rw [h.shaped.and_mask, if_neg (by have := ht.whole; omega)] at heq
    exact congrArg Prospect.hole heq
  have horigin := h.origin_le_tail
  have hrel : pad.startRel + (t.dest.raw - s.tail) = t.dest.raw - s.lifeOrigin := by
    have hstart := hplaced.start_eq
    omega
  refine ⟨pad, hpad, hhole, ?_, hplaced⟩
  rw [hplaced.top_eq, hrel]
  exact ceilTo_of_dvd h.shaped.page_pos ht.aligned

theorem padTail_spec (h : Settled s) (hspare : debug = true → s.holeMarks.length < 3) {t : PadTarget}
    (ht : t.Answers s) : s.padTail debug t = some (s, .error .mk) ∨
      ∃ s', s.padTail debug t = some (s', .ok ()) ∧ Settled s' ∧
        s'.holeMarks = s.holeMarks ++ [(s.tail, t.dest.raw - s.tail)] ∧ s'.tail = t.dest.raw ∧
        s'.lifeOrigin = s.lifeOrigin ∧ s'.ringMask = s.ringMask ∧ s'.head = s.head := by
  obtain ⟨pad, hpad, hhole, htop, hplaced⟩ := h.pad_prospect ht
  unfold AddressSpace.padTail
  dsimp only
  simp only [bind_eq_bind]
  rw [check_pos ht.tail_eq, bind_some, hpad, bind_some, debugCheck_pos hhole, bind_some, debugCheck_pos htop, bind_some]
  by_cases hfits : s.fits pad = true
  · right
    obtain ⟨region, hcommit, hcov⟩ := @commitTo_spec debug s pad.topRel h (hplaced.top_eq ▸ dvd_ceilTo _ _)
      hplaced.top_le (h.fits_le_ring hfits)
    have haligned : pad.topRel = ceilTo s.pageBytes (t.dest.raw - s.lifeOrigin) := by
      rw [htop, ceilTo_of_dvd h.shaped.page_pos ht.aligned]
    have hgrown : ∀ dead marks, Settled { s with
        region, commitTopRel := pad.topRel, deadBytes := dead, holeMarks := marks, tail := t.dest.raw } :=
      fun _ _ => h.grown ht.above.le t.dest.le_max haligned hcov
    have hmark := @markHole_eq debug { s with region, commitTopRel := pad.topRel } (t.dest.raw - s.tail) hspare
    rw [if_pos hfits, hcommit, bind_some, hmark, bind_some]
    dsimp only
    rw [assertWatermarkOrder_eq (hgrown _ _)]
    exact ⟨_, rfl, hgrown _ _, rfl, rfl, rfl, rfl, rfl⟩
  · left
    rw [if_neg hfits]
    rfl

end Answers

end InfinityDB.Space
