import InfinityDB.Space.Answers

/-!
# Safety of the address space

Every call keeps the invariant, moves the head only up and places its pieces end to end above the old
tail. A life is a chain of such calls. Injectivity of the ring map, the committed pages and the two
pins are read off the invariant at the end.
-/

namespace InfinityDB.Space

open Lib List Option

/-- One call seen from outside. -/
structure Steps (s s' : AddressSpace) (placed : List Piece) : Prop where
  settled : Settled s'
  origin_eq : s'.lifeOrigin = s.lifeOrigin
  ring_eq : s'.ringMask = s.ringMask
  head_le : s.head ≤ s'.head
  tiles : Tiles s.tail (placed.map Piece.span) s'.tail
  whole : ∀ start len, Piece.record start len ∈ placed → s.ringOffset start + len ≤ s.ringBytes

section Calls

variable {debug : Bool} {s s' : AddressSpace}

/-- A call that only sets what the window does not depend on. -/
theorem Steps.of_settled (hsettled : Settled s') (horigin : s'.lifeOrigin = s.lifeOrigin)
    (hring : s'.ringMask = s.ringMask) (hhead : s.head ≤ s'.head) (htail : s.tail = s'.tail) : Steps s s' [] :=
  ⟨hsettled, horigin, hring, hhead, htail, fun _ _ hmem => absurd hmem not_mem_nil⟩

theorem recorded_append {marks : List (Nat × Nat)} (h : s'.holeMarks = s.holeMarks ++ marks) :
    recorded s s' = marks.map fun mark => Piece.hole mark.1 mark.2 := by
  rw [recorded, h, drop_left]

variable {placed : List Piece} {dest : LogicalAddr}

private theorem steps_alloc {len : Nat} (h : Settled s)
    (hrun : (Call.alloc len).run false s = some (s', placed)) : Steps s s' placed := by
  obtain ⟨⟨s₁, reply⟩, halloc, hrun⟩ := bind_eq_some_iff.mp hrun
  cases hrun
  cases reply with
  | none =>
    have hsame := alloc_refused halloc
    subst hsame
    rw [recorded, drop_length]
    exact Steps.of_settled h rfl rfl le_rfl rfl
  | some addr =>
    have hroom := (room_fits_iff_alloc h (fun hc => Bool.noConfusion hc)).mpr ⟨_, _, halloc⟩
    obtain ⟨p, hp, hclass⟩ := bind_eq_some_iff.mp hroom
    have hplaced := h.placed hp
    obtain ⟨hfits, hinside⟩ := (classify_fits_iff h hplaced).mp hclass
    obtain ⟨start, hstart⟩ := isSome_iff_exists.mp hinside
    obtain ⟨s₂, hs₂, hsettled, hmarks, htail, horigin, hring, hhead⟩ :=
      @alloc_placed false _ _ _ _ h (fun hc => Bool.noConfusion hc) hp hfits hstart
    rw [halloc] at hs₂
    cases hs₂
    obtain ⟨hraw, _⟩ := startInside_eq_some hstart
    have hrel := hplaced.start_eq
    have hlen := hplaced.len_eq
    have hpos := hplaced.pos
    have hle := h.origin_le_tail
    rw [recorded_append hmarks]
    refine ⟨hsettled, horigin, hring, hhead.ge, ?_, ?_⟩
    · have hrecord : Tiles (s.lifeOrigin + p.startRel) [(addr.raw, len)] s'.tail :=
        ⟨hraw, hpos, by rw [htail, ← hlen]; rfl⟩
      have hmarked : Tiles s.tail ((p.marks s).map fun mark => (mark.1, mark.2)) (s.lifeOrigin + p.startRel) := by
        unfold Prospect.marks
        split
        · exact ⟨rfl, by assumption, by change s.tail + p.hole = _; omega⟩
        · change s.tail = _
          omega
      rw [map_append, List.map_map]
      exact hmarked.append hrecord
    · intro start' len' hmem
      have hrec : start' = addr.raw ∧ len' = len := by
        unfold Prospect.marks at hmem
        split at hmem <;> simpa using hmem
      have hwhole := hplaced.whole
      rw [AddressSpace.ringOffset, h.shaped.and_mask, hrec.1, hrec.2, hraw, Nat.add_sub_cancel_left]
      exact hwhole

private theorem steps_padTail {t : PadTarget} (h : Settled s) (hlegal : (Call.padTail t).Legal debug s)
    (hrun : (Call.padTail t).run false s = some (s', placed)) : Steps s s' placed := by
  obtain ⟨len, hroom⟩ := hlegal
  have ht := room_pad h hroom
  obtain ⟨⟨s₁, reply⟩, hpad, hrun⟩ := bind_eq_some_iff.mp hrun
  cases hrun
  rcases @padTail_spec false s h (fun hc => Bool.noConfusion hc) t ht with
    hfull | ⟨s₂, hs₂, hsettled, hmarks, htail, horigin, hring, hhead⟩
  · rw [hpad] at hfull
    cases hfull
    rw [recorded, drop_length]
    exact Steps.of_settled h rfl rfl le_rfl rfl
  · rw [hpad] at hs₂
    cases hs₂
    have habove := ht.above
    rw [recorded_append hmarks]
    refine ⟨hsettled, horigin, hring, hhead.ge, ⟨rfl, ?_, ?_⟩, ?_⟩
    · simp only [Piece.span]
      omega
    · simp only [Piece.span, Tiles, map_nil]
      omega
    · intro start len hmem
      simp at hmem

private theorem steps_advanceRoBoundary (h : Settled s) (hrun : s.advanceRoBoundary debug dest = some s') : Steps s s' [] := by
  obtain ⟨_, hlow, hrun⟩ := bind_eq_some_iff.mp hrun
  obtain ⟨_, hhigh, hrun⟩ := bind_eq_some_iff.mp hrun
  obtain ⟨_, _, hrun⟩ := bind_eq_some_iff.mp hrun
  cases hrun
  refine Steps.of_settled ⟨?_, ?_, ?_, ?_⟩ rfl rfl le_rfl rfl
  · exact h.shaped.congr rfl rfl rfl
  · exact { h.ordered with flushed_le := h.ordered.flushed_le.trans (check_eq_some.mp hlow), boundary_le := check_eq_some.mp hhigh }
  · exact { h.backed with }
  · exact { h.pinned with }

private theorem steps_advanceFlushed (h : Settled s) (hrun : s.advanceFlushed debug dest = some s') : Steps s s' [] := by
  obtain ⟨_, hlow, hrun⟩ := bind_eq_some_iff.mp hrun
  obtain ⟨_, hhigh, hrun⟩ := bind_eq_some_iff.mp hrun
  obtain ⟨marks, _, hrun⟩ := bind_eq_some_iff.mp hrun
  obtain ⟨_, _, hrun⟩ := bind_eq_some_iff.mp hrun
  cases hrun
  refine Steps.of_settled ⟨?_, ?_, ?_, ?_⟩ rfl rfl le_rfl rfl
  · exact h.shaped.congr rfl rfl rfl
  · exact { h.ordered with head_le := h.ordered.head_le.trans (check_eq_some.mp hlow), flushed_le := check_eq_some.mp hhigh }
  · exact { h.backed with }
  · exact { h.pinned with }

/-- The ceiling is below every pin. -/
private theorem releaseCeiling_le : s.releaseCeiling ≤ s.flushed ∧ (∀ pin ∈ s.walkPin, s.releaseCeiling ≤ pin.releaseCeiling) ∧
    ∀ p ∈ s.recordPin, s.releaseCeiling ≤ p := by
  unfold AddressSpace.releaseCeiling
  cases s.walkPin <;> cases s.recordPin <;> simp

private theorem steps_advanceHead (h : Settled s) (hrun : s.advanceHead debug dest = some s') : Steps s s' [] := by
  obtain ⟨_, hlow, hrun⟩ := bind_eq_some_iff.mp hrun
  obtain ⟨_, hhigh, hrun⟩ := bind_eq_some_iff.mp hrun
  obtain ⟨_, hceil, hrun⟩ := bind_eq_some_iff.mp hrun
  obtain ⟨s₁, hrelease, hrun⟩ := bind_eq_some_iff.mp hrun
  obtain ⟨_, _, hrun⟩ := bind_eq_some_iff.mp hrun
  cases hrun
  rw [check_eq_some] at hlow hhigh hceil
  have hord := h.ordered
  have hshape : Shaped { s with head := dest.raw } :=
    h.shaped.congr rfl rfl rfl
  have hfloor : AddressSpace.pageFloor { s with head := dest.raw } (dest.raw - s.lifeOrigin) =
      floorTo s.pageBytes (dest.raw - s.lifeOrigin) := hshape.pageFloor_eq _
  have hup : s.commitFloorRel ≤ floorTo s.pageBytes (dest.raw - s.lifeOrigin) := by
    rw [h.backed.floor_eq]
    exact floorTo_mono _ (by omega)
  have hbelow := floorTo_le s.pageBytes (dest.raw - s.lifeOrigin)
  have htop := h.tail_le_top
  have hspan := h.top_le
  have hflushed := hord.flushed_le.trans hord.boundary_le
  dsimp only at hrelease
  rw [hfloor] at hrelease
  obtain ⟨region, hspec, hcov⟩ := @releaseTo_spec debug { s with head := dest.raw } _ hshape h.floor_dvd
    (dvd_floorTo _ _) hup (by dsimp only; omega) (by change _ ≤ s.ringBytes; dsimp only; omega) h.backed.covers
  rw [hspec] at hrelease
  cases hrelease
  obtain ⟨_, hwalk, hrecord⟩ := @releaseCeiling_le s
  refine Steps.of_settled ⟨?_, ?_, ?_, ?_⟩ rfl rfl hlow rfl
  · exact h.shaped.congr rfl rfl rfl
  · exact ⟨hord.origin_le.trans hlow, hhigh, hord.flushed_le, hord.boundary_le, hord.tail_le⟩
  · exact ⟨rfl, h.backed.top_eq, hcov⟩
  · exact ⟨fun pin hpin => hceil.trans (hwalk pin hpin), fun p hp => hceil.trans (hrecord p hp)⟩

private theorem steps_beginWalk {lowest : Option LogicalAddr} {addr : LogicalAddr} (h : Settled s)
    (hlegal : ∀ a ∈ lowest, s.head ≤ a.raw ∧ a.raw < s.flushed) (hrun : s.beginWalk debug lowest = some (s', addr)) :
    Steps s s' [] := by
  obtain ⟨_, _, hrun⟩ := bind_eq_some_iff.mp hrun
  obtain ⟨_, _, hrun⟩ := bind_eq_some_iff.mp hrun
  obtain ⟨_, _, hrun⟩ := bind_eq_some_iff.mp hrun
  obtain ⟨_, _, hrun⟩ := bind_eq_some_iff.mp hrun
  cases hrun
  have hord := h.ordered
  refine Steps.of_settled ⟨h.shaped.congr rfl rfl rfl, ?_, ?_, ?_, h.pinned.record⟩ rfl rfl le_rfl rfl
  · exact { h.ordered with }
  · exact { h.backed with }
  · intro pin hpin
    cases hpin
    cases lowest with
    | none => exact hord.head_le
    | some a => exact le_min (hlegal a rfl).1 hord.head_le

private theorem steps_endWalk (h : Settled s) (hrun : s.endWalk = some s') : Steps s s' [] := by
  obtain ⟨_, _, hrun⟩ := bind_eq_some_iff.mp hrun
  cases hrun
  refine Steps.of_settled ⟨h.shaped.congr rfl rfl rfl, ?_, ?_, ?_, h.pinned.record⟩ rfl rfl le_rfl rfl
  · exact { h.ordered with }
  · exact { h.backed with }
  · intro pin hpin
    cases hpin

private theorem steps_setRecordPin {pin : Option LogicalAddr} (h : Settled s)
    (hlegal : ∀ p ∈ pin, s.head ≤ p.raw ∧ p.raw < s.tail) (hrun : s.setRecordPin debug pin = some s') :
    Steps s s' [] := by
  obtain ⟨_, _, hrun⟩ := bind_eq_some_iff.mp hrun
  obtain ⟨_, _, hrun⟩ := bind_eq_some_iff.mp hrun
  cases hrun
  refine Steps.of_settled ⟨h.shaped.congr rfl rfl rfl, ?_, ?_, h.pinned.walk, ?_⟩ rfl rfl le_rfl rfl
  · exact { h.ordered with }
  · exact { h.backed with }
  · intro p hp
    obtain ⟨a, ha, rfl⟩ := map_eq_some_iff.mp hp
    exact (hlegal a ha).1

private theorem steps_setWindowLimit {bytes : Nat} (h : Settled s) (hrun : s.setWindowLimit bytes = some s') :
    Steps s s' [] := by
  obtain ⟨_, hfour, hrun⟩ := bind_eq_some_iff.mp hrun
  cases hrun
  have hfloor := h.shaped.pageFloor_eq bytes
  refine Steps.of_settled ⟨?_, ?_, ?_, h.pinned.walk, h.pinned.record⟩ rfl rfl le_rfl rfl
  · refine { h.shaped with limit_dvd := ?_, limit_four := check_eq_some.mp hfour, limit_le := Nat.min_le_right _ _ }
    change s.pageBytes ∣ min (s.pageFloor bytes) s.ringBytes
    rw [hfloor]
    rcases Nat.le_total (floorTo s.pageBytes bytes) s.ringBytes with hle | hle
    · rw [Nat.min_eq_left hle]
      exact dvd_floorTo _ _
    · rw [Nat.min_eq_right hle]
      exact h.shaped.page_dvd_ring
  · exact { h.ordered with }
  · exact { h.backed with }

theorem Steps.of_map {call : Option AddressSpace} (hrun : call.map (·, []) = some (s', placed))
    (h : ∀ s₁, call = some s₁ → Steps s s₁ []) : Steps s s' placed := by
  obtain ⟨s₁, hcall, heq⟩ := map_eq_some_iff.mp hrun
  cases heq
  exact h _ hcall

/-- What any call does. -/
theorem Call.steps {c : Call} (h : Settled s) (hlegal : c.Legal false s)
    (hrun : c.run false s = some (s', placed)) : Steps s s' placed := by
  cases c with
  | alloc len => exact steps_alloc h hrun
  | padTail target => exact steps_padTail h hlegal hrun
  | advanceRoBoundary dest => exact .of_map hrun fun _ => steps_advanceRoBoundary h
  | advanceFlushed dest => exact .of_map hrun fun _ => steps_advanceFlushed h
  | advanceHead dest => exact .of_map hrun fun _ => steps_advanceHead h
  | beginWalk lowest =>
    obtain ⟨_, hcall, heq⟩ := map_eq_some_iff.mp hrun
    cases heq
    exact steps_beginWalk h hlegal hcall
  | endWalk => exact .of_map hrun fun _ => steps_endWalk h
  | setRecordPin pin =>
    unfold Call.run at hrun
    exact .of_map hrun fun _ => steps_setRecordPin h hlegal
  | setWindowLimit bytes => exact .of_map hrun fun _ => steps_setWindowLimit h

end Calls

private theorem new_settled {config : AddressSpaceConfig} {s : AddressSpace} (h : AddressSpace.new config = some s) :
    Settled s ∧ s.tail = s.lifeOrigin := by
  obtain ⟨_, hring, h⟩ := bind_eq_some_iff.mp h
  obtain ⟨_, hfour, h⟩ := bind_eq_some_iff.mp h
  obtain ⟨_, hpage, h⟩ := bind_eq_some_iff.mp h
  rw [check_eq_some] at hring hfour hpage
  have hbytes : config.reserveBytes - 1 + 1 = config.reserveBytes :=
    Nat.sub_add_cancel (Nat.pos_of_ne_zero hring.1)
  have hdvd : config.pageBytes ∣ config.reserveBytes := pow2_dvd_pow2 hpage.exists_eq hring.exists_eq (by omega)
  have hpages : 0 < config.reserveBytes / config.pageBytes :=
    Nat.div_pos (by omega) (Nat.pos_of_ne_zero hpage.1)
  have hzero : ∀ page, floorTo page 0 = 0 := fun page => Nat.zero_sub _
  cases h
  refine ⟨⟨⟨hpage.exists_eq, ?_, ?_, hdvd, hfour, ?_⟩, ?_, ⟨?_, ?_, ?_⟩, ?_⟩, rfl⟩
  · exact hbytes.symm ▸ hring.exists_eq
  · exact hbytes.symm ▸ hfour
  · exact hbytes.ge
  · exact ⟨le_rfl, le_rfl, le_rfl, le_rfl, config.lifeOrigin.le_max⟩
  · dsimp only
    rw [Nat.sub_self, hzero]
  · dsimp only
    rw [Nat.sub_self]
    exact (ceilTo_of_dvd (Nat.pos_of_ne_zero hpage.1) (dvd_zero _)).symm
  · change Covers ((config.reserveBytes - 1 + 1) / config.pageBytes) (0 / config.pageBytes) (0 / config.pageBytes) _
    rw [hbytes, Nat.zero_div]
    exact Covers.empty _ _ hpages
  · constructor
    · intro pin hpin
      cases hpin
    · intro p hp
      cases hp

theorem Steps.trans {s s₁ s₂ : AddressSpace} {xs ys : List Piece} (h₁ : Steps s s₁ xs) (h₂ : Steps s₁ s₂ ys) :
    Steps s s₂ (xs ++ ys) := by
  have horigin := h₁.origin_eq
  have hring := h₁.ring_eq
  refine ⟨h₂.settled, h₂.origin_eq.trans horigin, h₂.ring_eq.trans hring, h₁.head_le.trans h₂.head_le, ?_, ?_⟩
  · rw [map_append]
    exact h₁.tiles.append h₂.tiles
  · intro start len hmem
    rcases mem_append.mp hmem with hmem | hmem
    · exact h₁.whole start len hmem
    · have hwhole := h₂.whole start len hmem
      rwa [AddressSpace.ringOffset, AddressSpace.ringBytes, horigin, hring] at hwhole

/-- A whole run, by induction on its calls. -/
theorem Run.steps {s₀ s : AddressSpace} {pieces : List Piece} (h : Settled s₀) (hrun : Run false s₀ pieces s) :
    Steps s₀ s pieces := by
  induction hrun with
  | start => exact Steps.of_settled h rfl rfl le_rfl rfl
  | call _ legal returns ih => exact ih.trans (Call.steps ih.settled legal returns)

section Addresses

variable {s : AddressSpace}

theorem Settled.ringOffset_eq (h : Settled s) (a : Nat) : s.ringOffset a = (a - s.lifeOrigin) % s.ringBytes :=
  h.shaped.and_mask _

theorem Settled.tail_le_head_add (h : Settled s) : s.tail ≤ s.head + s.ringBytes := by
  have hfloor := h.floor_le_head
  have htail := h.tail_le_top
  have htop := h.top_le
  have horigin := h.ordered.origin_le
  omega

theorem Settled.ringOffset_injOn (h : Settled s) : Set.InjOn s.ringOffset (Set.Ico s.head s.tail) := by
  intro a ha b hb hab
  have horigin := h.ordered.origin_le
  have hspan := h.tail_le_head_add
  rw [h.ringOffset_eq, h.ringOffset_eq] at hab
  have ha₁ := ha.1
  have ha₂ := ha.2
  have hb₁ := hb.1
  have hb₂ := hb.2
  have heq := @mod_injOn_window _ (s.head - s.lifeOrigin) _ _ (by omega) (by omega) (by omega) (by omega) hab
  omega

theorem Settled.page_committed (h : Settled s) {a : Nat} (ha : a ∈ Set.Ico s.head s.tail) :
    s.region.committed[s.ringOffset a / s.pageBytes]? = some true := by
  have hlow := ha.1
  have hhigh := ha.2
  have hpos := h.shaped.page_pos
  have hslot : s.ringOffset a / s.pageBytes = (a - s.lifeOrigin) / s.pageBytes % (s.ringBytes / s.pageBytes) := by
    have hmul : s.pageBytes * (s.ringBytes / s.pageBytes) = s.ringBytes := Nat.mul_div_cancel' h.shaped.page_dvd_ring
    rw [h.ringOffset_eq, ← hmul, Nat.mod_mul_right_div_self, hmul]
  rw [hslot]
  apply h.backed.covers.inside
  · exact Nat.div_le_div_right (h.floor_le_head.trans (by omega))
  · have htail := h.tail_le_top
    have horigin := h.ordered.origin_le
    rw [Nat.div_lt_iff_lt_mul hpos, mul_comm, Nat.mul_div_cancel' h.top_dvd]
    omega

end Addresses

/-- What holds of a state and the pieces placed in its life. -/
structure Safe (s : AddressSpace) (pieces : List Piece) : Prop where
  ordered : s.lifeOrigin ≤ s.head ∧ s.head ≤ s.flushed ∧ s.flushed ≤ s.roBoundary ∧ s.roBoundary ≤ s.tail
  /-- Records and holes fill the space below the tail, -/
  tiled : Tiles s.lifeOrigin (pieces.map Piece.span) s.tail
  /-- each above the ones before it, -/
  disjoint : (pieces.map Piece.span).Pairwise fun x y => x.1 + x.2 ≤ y.1
  /-- and no record crosses a ring top. -/
  whole : ∀ start len, Piece.record start len ∈ pieces → s.ringOffset start + len ≤ s.ringBytes
  injective : Set.InjOn s.ringOffset (Set.Ico s.head s.tail)
  committed : ∀ a ∈ Set.Ico s.head s.tail, s.region.committed[s.ringOffset a / s.pageBytes]? = some true
  walkPinned : ∀ pin ∈ s.walkPin, s.head ≤ pin.releaseCeiling
  recordPinned : ∀ p ∈ s.recordPin, s.head ≤ p

/-- No byte in RAM shares its place in the ring with a piece placed later. -/
def Untouched (s : AddressSpace) : Prop :=
  ∀ later s', Run false s later s' → ∀ piece ∈ later, ∀ a ∈ Set.Ico s'.head s.tail,
    ∀ b ∈ Set.Ico piece.span.1 (piece.span.1 + piece.span.2), s'.ringOffset a ≠ s'.ringOffset b

theorem Settled.untouched {s : AddressSpace} (h : Settled s) : Untouched s := by
  intro later s' hrun piece hmem a ha b hb hab
  have hsteps := Run.steps h hrun
  have hbounds := hsteps.tiles.mem_bounds piece.span (List.mem_map_of_mem hmem)
  have ha₁ := ha.1
  have ha₂ := ha.2
  have hb₁ := hb.1
  have hb₂ := hb.2
  have heq := hsteps.settled.ringOffset_injOn ⟨ha₁, by omega⟩ ⟨by omega, by omega⟩ hab
  omega

/-- A life of the address space, in the build that ships. -/
theorem addressSpace_safe {config : AddressSpaceConfig} {s₀ s : AddressSpace} {pieces : List Piece}
    (boot : AddressSpace.new config = some s₀) (run : Run false s₀ pieces s) : Safe s pieces ∧ Untouched s ∧
      (∀ len, s.room false len = some .fits ↔ ∃ s' addr, s.alloc false len = some (s', some addr)) ∧
      ∀ len s', s.alloc false len = some (s', none) → s' = s := by
  obtain ⟨hsettled, horigin⟩ := new_settled boot
  have hsteps := Run.steps hsettled run
  have h := hsteps.settled
  have htiled : Tiles s.lifeOrigin (pieces.map Piece.span) s.tail := by
    rw [hsteps.origin_eq, ← horigin]
    exact hsteps.tiles
  refine ⟨⟨?_, htiled, htiled.pairwise, ?_, h.ringOffset_injOn, fun a ha => h.page_committed ha, h.pinned.walk,
    h.pinned.record⟩, h.untouched, ?_, ?_⟩
  · exact ⟨h.ordered.origin_le, h.ordered.head_le, h.ordered.flushed_le, h.ordered.boundary_le⟩
  · intro start len hmem
    have hwhole := hsteps.whole start len hmem
    rwa [AddressSpace.ringOffset, AddressSpace.ringBytes, ← hsteps.origin_eq, ← hsteps.ring_eq] at hwhole
  · intro len
    exact room_fits_iff_alloc h (fun hc => Bool.noConfusion hc)
  · intro len s' halloc
    exact alloc_refused halloc

def runCalls (debug : Bool) (s : AddressSpace) : List Call → Option (AddressSpace × List Piece)
  | [] => some (s, [])
  | c :: calls => do
    let (s', placed) ← c.run debug s
    let (s'', later) ← runCalls debug s' calls
    return (s'', placed ++ later)

/-- Three records over a ring of four two-byte pages; the last one leaves a hole at the ring top. -/
def wrapConfig : AddressSpaceConfig := ⟨8, 2, ⟨0, by decide⟩⟩

def wrapCalls : List Call :=
  [.alloc 3, .alloc 3, .advanceRoBoundary ⟨6, by decide⟩, .advanceFlushed ⟨6, by decide⟩,
    .advanceHead ⟨6, by decide⟩, .alloc 3]

def wrapPieces : List Piece := [.record 0 3, .record 3 3, .hole 6 2, .record 8 3]

private theorem run_of_free {debug : Bool} {s₀ s s' : AddressSpace} {pieces placed : List Piece} {calls : List Call}
    (hrun : Run debug s₀ pieces s) (hfree : ∀ c ∈ calls, ∀ s, c.Legal debug s)
    (hcalls : runCalls debug s calls = some (s', placed)) : Run debug s₀ (pieces ++ placed) s' := by
  induction calls generalizing s pieces placed with
  | nil =>
    cases hcalls
    rw [append_nil]
    exact hrun
  | cons c calls ih =>
    obtain ⟨⟨s₁, first⟩, hc, hcalls⟩ := bind_eq_some_iff.mp hcalls
    obtain ⟨⟨s₂, later⟩, hlater, hcalls⟩ := bind_eq_some_iff.mp hcalls
    cases hcalls
    rw [← append_assoc]
    apply ih (hrun.call (hfree c mem_cons_self s) hc) _ hlater
    intro c' hc'
    exact hfree c' (mem_cons_of_mem c hc')

theorem addressSpace_safe_wrap : ∃ s₀ s, AddressSpace.new wrapConfig = some s₀ ∧ Run false s₀ wrapPieces s ∧
    s.tail = 11 ∧ Safe s wrapPieces := by
  obtain ⟨s₀, hboot⟩ : ∃ s₀, AddressSpace.new wrapConfig = some s₀ := ⟨_, rfl⟩
  have hcalls : (runCalls false s₀ wrapCalls).map (fun r => (r.1.tail, r.2)) = some (11, wrapPieces) := by
    cases hboot
    decide +kernel
  obtain ⟨⟨s, placed⟩, hs, heq⟩ := map_eq_some_iff.mp hcalls
  obtain ⟨htail, hplaced⟩ := Prod.mk.inj heq
  have hrun : Run false s₀ wrapPieces s := by
    rw [← hplaced]
    apply run_of_free Run.start _ hs
    intro c hc s
    simp only [wrapCalls, mem_cons, not_mem_nil, or_false] at hc
    rcases hc with rfl | rfl | rfl | rfl | rfl | rfl <;> trivial
  exact ⟨s₀, s, hboot, hrun, htail, (addressSpace_safe hboot hrun).1⟩

end InfinityDB.Space
