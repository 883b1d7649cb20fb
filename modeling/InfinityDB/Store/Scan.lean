import InfinityDB.Store.Records
import InfinityDB.Lib.ReverseBits

/-!
# Scanning a store

A scan visits the home groups of the table in reverse-binary order and emits the keys at home in
each. A doubling splits a group in two that the order visits next to each other, so a key that stays
is met wherever the table grows.
-/

namespace InfinityDB

open Lib List Option

def reverseBits (v : UInt64) : UInt64 := UInt64.ofNat (bitReverse 64 v.toNat)

/-- The next cursor: a count upwards in the reversed bits below the mask. -/
def nextRevCursor (cursor mask : UInt64) : UInt64 := reverseBits (reverseBits (cursor ||| ~~~mask) + 1)

/-- The live address of a slot, if it is at home in a group. -/
def Index.atHome {mode : SlotMode} {Addr : Type} (t : Index mode Addr) (group : Nat) (hashOf : Addr → UInt64) (pos : Nat) : Option Addr :=
  match t.slots[pos]? with
  | some (.live _ _ addr _) => if (hashOf addr).toNat % t.groupCount = group % t.groupCount then some addr else none
  | _ => none

/-- The live addresses at home in a group, along the chain from it. -/
def Index.scanHomeGroup {mode : SlotMode} {Addr : Type} (t : Index mode Addr) (group : Nat) (hashOf : Addr → UInt64) : List Addr :=
  ((t.chain group).flatMap positions).filterMap (t.atHome group hashOf)

namespace Records
variable {Key : Type}

/-- The records of one home group: an expired one is reaped, and the keys of the others are
emitted. -/
def visitBatch (hasher : Key → UInt64) (nowMs : Nat) : List Nat → Records Key → Option (Records Key × List Key)
  | [], s => some (s, [])
  | addr :: rest, s => do
    let r ← s.arena addr
    if r.isExpired nowMs then
      let s ← s.removeRecord hasher addr
      visitBatch hasher nowMs rest s
    else
      let (s, keys) ← visitBatch hasher nowMs rest s
      some (s, r.key :: keys)

/-- What a call of `scan` leaves: the store, the next cursor, the keys emitted and the groups
visited. -/
structure ScanReply (Key : Type) where
  records : Records Key
  cursor : UInt64
  keys : List Key
  visits : Nat

/-- The loop of a scan, which has as many turns as there are groups. -/
def scanLoop (hasher : Key → UInt64) (count nowMs : Nat) (mask : UInt64) :
    Nat → Records Key → UInt64 → List Key → Nat → Option (ScanReply Key)
  | 0, _, _, _, _ => none
  | turns + 1, s, cursor, keys, visits => do
    let (s, found) ← visitBatch hasher nowMs (s.index.scanHomeGroup cursor.toNat (s.hashAt hasher)) s
    let keys := keys ++ found
    let cursor := nextRevCursor cursor mask
    if cursor = 0 ∨ count ≤ keys.length then some ⟨s, cursor, keys, visits + 1⟩
    else scanLoop hasher count nowMs mask turns s cursor keys (visits + 1)

def scan (hasher : Key → UInt64) (s : Records Key) (cursor : UInt64) (count nowMs : Nat) : Option (ScanReply Key) :=
  let mask := UInt64.ofNat s.index.groupCount - 1
  scanLoop hasher count nowMs mask s.index.groupCount s (cursor &&& mask) [] 0

end Records

private theorem reverseBits_toNat (v : UInt64) : (reverseBits v).toNat = bitReverse 64 v.toNat := by
  rw [reverseBits, UInt64.toNat_ofNat']
  exact Nat.mod_eq_of_lt (bitReverse_lt 64 _)

variable {k : Nat}

theorem groupMask_toNat (hk : k < 64) : (UInt64.ofNat (2 ^ k) - 1).toNat = 2 ^ k - 1 := by
  have hpos : 0 < 2 ^ k := by positivity
  have hlt : 2 ^ k < 2 ^ 64 := Nat.pow_lt_pow_right (by decide) hk
  have hone : (1 : UInt64).toNat = 1 := rfl
  rw [UInt64.toNat_sub_of_le, UInt64.toNat_ofNat_of_lt' hlt, hone]
  rw [UInt64.le_iff_toNat_le, UInt64.toNat_ofNat_of_lt' hlt, hone]
  exact hpos

private theorem and_groupMask (hk : k < 64) (c : UInt64) : (c &&& (UInt64.ofNat (2 ^ k) - 1)).toNat = c.toNat % 2 ^ k := by
  rw [UInt64.toNat_and, groupMask_toNat hk, Nat.and_two_pow_sub_one_eq_mod]

private theorem or_not_groupMask (hk : k < 64) {c : UInt64} (hc : c.toNat < 2 ^ k) :
    (c ||| ~~~(UInt64.ofNat (2 ^ k) - 1)).toNat = 2 ^ k * (2 ^ (64 - k) - 1) + c.toNat := by
  have hpow : 2 ^ k * 2 ^ (64 - k) = 2 ^ 64 := by rw [← pow_add, Nat.add_sub_cancel' hk.le]
  have hpos : 0 < 2 ^ k := by positivity
  have hlt : 2 ^ k < 2 ^ 64 := Nat.pow_lt_pow_right (by decide) hk
  have hnot : (~~~(UInt64.ofNat (2 ^ k) - 1)).toNat = 2 ^ k * (2 ^ (64 - k) - 1) := by
    rw [UInt64.toNat_not, groupMask_toNat hk, Nat.mul_sub, hpow]
    have hsize : UInt64.size = 2 ^ 64 := rfl
    omega
  rw [UInt64.toNat_or, hnot, Nat.or_comm]
  exact (Nat.two_pow_add_eq_or_of_lt hc _).symm

/-- One step in the reversed order of the groups, and back to the first after the last. -/
private theorem nextRevCursor_toNat (hk : k < 64) {c : UInt64} (hc : c.toNat < 2 ^ k) :
    (nextRevCursor c (UInt64.ofNat (2 ^ k) - 1)).toNat =
      if bitReverse k c.toNat + 1 = 2 ^ k then 0 else bitReverse k (bitReverse k c.toNat + 1) := by
  have hpow : 2 ^ k * 2 ^ (64 - k) = 2 ^ 64 := by rw [← pow_add, Nat.add_sub_cancel' hk.le]
  have hj : 0 < 2 ^ (64 - k) := by positivity
  have hr := bitReverse_lt k c.toNat
  have hrev : (reverseBits (c ||| ~~~(UInt64.ofNat (2 ^ k) - 1))).toNat =
      bitReverse k c.toNat * 2 ^ (64 - k) + (2 ^ (64 - k) - 1) := by
    rw [reverseBits_toNat, or_not_groupMask hk hc]
    have hsplit : 64 = k + (64 - k) := (Nat.add_sub_cancel' hk.le).symm
    have hadd := bitReverse_add k (64 - k) (2 ^ k * (2 ^ (64 - k) - 1) + c.toNat)
    rw [← hsplit] at hadd
    rw [hadd, Nat.mul_add_div (by positivity), Nat.div_eq_of_lt hc, add_zero, bitReverse_ones,
      ← bitReverse_mod le_rfl (_ + _), Nat.mul_add_mod, Nat.mod_eq_of_lt hc]
  have hsum : (reverseBits (c ||| ~~~(UInt64.ofNat (2 ^ k) - 1)) + 1).toNat =
      (bitReverse k c.toNat + 1) * 2 ^ (64 - k) % 2 ^ 64 := by
    rw [UInt64.toNat_add, hrev]
    have hone : (1 : UInt64).toNat = 1 := rfl
    have hval : bitReverse k c.toNat * 2 ^ (64 - k) + (2 ^ (64 - k) - 1) + 1 = (bitReverse k c.toNat + 1) * 2 ^ (64 - k) := by
      rw [add_assoc, Nat.sub_add_cancel hj, Nat.add_mul, one_mul]
    rw [hone, hval]
  rw [nextRevCursor, reverseBits_toNat, hsum]
  split
  next hlast => rw [hlast, hpow, Nat.mod_self, bitReverse_zero]
  rename_i hnot
  have hlt : bitReverse k c.toNat + 1 < 2 ^ k := by omega
  have hfits : (bitReverse k c.toNat + 1) * 2 ^ (64 - k) < 2 ^ 64 := by
    rw [← hpow]
    exact Nat.mul_lt_mul_of_pos_right hlt hj
  have hsplit : 64 = (64 - k) + k := (Nat.sub_add_cancel hk.le).symm
  have hadd := bitReverse_add (64 - k) k ((bitReverse k c.toNat + 1) * 2 ^ (64 - k))
  rw [← hsplit] at hadd
  rw [Nat.mod_eq_of_lt hfits, hadd, bitReverse_mul_pow, zero_mul, zero_add, Nat.mul_div_cancel _ hj]

theorem pos_unique {layout : Layout Nat} (h : (entries layout).Nodup) {p q : Nat} {e : UInt64 × Nat} (hp : layout[p]? = some (some e))
    (hq : layout[q]? = some (some e)) : p = q := by
  by_contra hne
  -- with the one slot cleared the entry is gone, and yet it is in the other
  have hcleared := Index.entries_erase hp
  have hmem : e ∈ (entries layout).erase e := by
    rw [← hcleared, mem_entries]
    exact ⟨q, by rw [getElem?_set_ne hne]; exact hq⟩
  exact (h.mem_erase_iff.mp hmem).1 rfl

private theorem nodup_flatMap_positions {groups : List Nat} (h : groups.Nodup) : (groups.flatMap positions).Nodup := by
  rw [nodup_flatMap]
  refine ⟨fun g _ => ?_, h.imp fun {a b} hab => ?_⟩
  · exact nodup_range.map fun i j hij => Nat.add_left_cancel hij
  · intro pos ha hb
    exact hab ((Index.mem_positions.mp ha).symm.trans (Index.mem_positions.mp hb))

namespace Records
variable {Key : Type} {hasher : Key → UInt64} {s s' : Records Key} {layout : Layout Nat}

section
variable (h : s.Valid hasher layout)
include h

/-- The groups are a power of two below the word size. -/
theorem Valid.groups : ∃ k, k < 64 ∧ s.index.groupCount = 2 ^ k ∧ s.index.capacity = 2 ^ k * GROUP := by
  obtain ⟨k, hk⟩ := h.rep.groups
  refine ⟨k, ?_, Index.groupCount_eq hk, hk⟩
  have hfits := h.fits
  rw [hk, usizeLimit] at hfits
  exact (Nat.pow_lt_pow_iff_right (by decide)).mp ((Nat.le_mul_of_pos_right _ (by decide)).trans_lt hfits)

theorem Valid.slot_of_live {pos : Nat} {tag : UInt8} {fp : UInt16} {addr : Nat} {ext : memoryMode.Ext}
    (hslot : s.index.slots[pos]? = some (.live tag fp addr ext)) :
    ∃ r, s.arena addr = some r ∧ layout[pos]? = some (some (hasher r.key, addr)) := by
  obtain ⟨entry, hentry, hkeeps⟩ := h.rep.entry hslot
  cases entry with
  | none => simp [Keeps, IndexSlot.special] at hkeeps
  | some e =>
    obtain ⟨r, hr, hhash⟩ := h.backed.records e (mem_entries.mpr ⟨pos, hentry⟩)
    rw [Keeps, IndexSlot.of, IndexSlot.live.injEq] at hkeeps
    rw [← hkeeps.2.2.1] at hr
    refine ⟨r, hr, ?_⟩
    rw [hentry, hhash, hkeeps.2.2.1]

/-- What a slot has at home in a group. -/
theorem Valid.atHome_eq_some {group pos addr : Nat} : s.index.atHome group (s.hashAt hasher) pos = some addr ↔
      ∃ r, s.arena addr = some r ∧ layout[pos]? = some (some (hasher r.key, addr)) ∧
        (hasher r.key).toNat % s.index.groupCount = group % s.index.groupCount := by
  rw [Index.atHome]
  constructor
  · intro hpos
    split at hpos
    next tag fp a ext hslot =>
      obtain ⟨r, hr, hentry⟩ := h.slot_of_live hslot
      split at hpos
      next hhome =>
        rw [hashAt_of_arena hr] at hhome
        rw [← some.inj hpos]
        exact ⟨r, hr, hentry, hhome⟩
      · simp at hpos
    · simp at hpos
  · intro hex
    obtain ⟨r, hr, hpos, hhome⟩ := hex
    obtain ⟨slot, hslot, hkeeps⟩ := h.rep.slot hpos
    rw [hslot, hkeeps, IndexSlot.of]
    simp only
    rw [hashAt_of_arena hr, if_pos hhome]

theorem Valid.mem_scanHomeGroup {group addr : Nat} : addr ∈ s.index.scanHomeGroup group (s.hashAt hasher) ↔
      ∃ r, s.arena addr = some r ∧ (hasher r.key).toNat % s.index.groupCount = group % s.index.groupCount := by
  rw [Index.scanHomeGroup, mem_filterMap]
  constructor
  · intro hex
    obtain ⟨pos, -, hpos⟩ := hex
    obtain ⟨r, hr, -, hhome⟩ := h.atHome_eq_some.mp hpos
    exact ⟨r, hr, hhome⟩
  · intro hex
    obtain ⟨r, hr, hhome⟩ := hex
    obtain ⟨pos, hpos⟩ := mem_entries.mp (h.backed.indexed addr r hr)
    have hchain := h.rep.chained pos _ hpos
    refine ⟨pos, ?_, h.atHome_eq_some.mpr ⟨r, hr, hpos, hhome⟩⟩
    rw [Index.mem_flatMap_positions]
    rw [Index.chain, Index.probes, probeSeq] at hchain ⊢
    rw [← hhome]
    exact hchain

theorem Valid.nodup_scanHomeGroup (group : Nat) : (s.index.scanHomeGroup group (s.hashAt hasher)).Nodup := by
  obtain ⟨k, -, hgroups, -⟩ := h.groups
  have hchain : (s.index.chain group).Nodup := by
    apply (takeThrough_isPrefix _ _).sublist.nodup
    rw [Index.probes, hgroups]
    exact nodup_probeSeq k group
  refine (nodup_flatMap_positions hchain).filterMap fun p q addr hp hq => ?_
  obtain ⟨r, hr, hlp, -⟩ := h.atHome_eq_some.mp hp
  obtain ⟨r', hr', hlq, -⟩ := h.atHome_eq_some.mp hq
  rw [hr, some.injEq] at hr'
  rw [← hr'] at hlq
  exact pos_unique h.backed.nodup hlp hlq

end

/-- What a visit keeps: the sizes, and the records that are not expired. -/
structure Reaped (s s' : Records Key) (nowMs : Nat) : Prop where
  capacity : s'.index.capacity = s.index.capacity
  rebuilds : s'.index.rebuilds = s.index.rebuilds
  kept : ∀ addr r, s.arena addr = some r → r.isExpired nowMs = false → s'.arena addr = some r

theorem Reaped.refl (s : Records Key) (nowMs : Nat) : Reaped s s nowMs := ⟨rfl, rfl, fun _ _ h _ => h⟩

theorem Reaped.trans {s₁ : Records Key} {nowMs : Nat} (h : Reaped s s₁ nowMs) (h' : Reaped s₁ s' nowMs) : Reaped s s' nowMs where
  capacity := h'.capacity.trans h.capacity
  rebuilds := h'.rebuilds.trans h.rebuilds
  kept addr r hr hlive := h'.kept addr r (h.kept addr r hr hlive) hlive

/-- Every record of the batch that is not expired is emitted. -/
theorem Valid.visitBatch {nowMs : Nat} {batch : List Nat} (h : s.Valid hasher layout) (hnodup : batch.Nodup)
    (hbatch : ∀ addr ∈ batch, ∃ r, s.arena addr = some r) :
    ∃ s' layout' keys, Records.visitBatch hasher nowMs batch s = some (s', keys) ∧ s'.Valid hasher layout' ∧ Reaped s s' nowMs ∧
      ∀ addr ∈ batch, ∀ r, s.arena addr = some r → r.isExpired nowMs = false → r.key ∈ keys := by
  induction batch generalizing s layout with
  | nil => exact ⟨s, layout, [], rfl, h, Reaped.refl s nowMs, fun _ hmem => absurd hmem not_mem_nil⟩
  | cons addr batch ih =>
    rw [nodup_cons] at hnodup
    obtain ⟨r, hr⟩ := hbatch addr mem_cons_self
    rw [Records.visitBatch, hr, bind_eq_bind, bind_some]
    by_cases hexpired : r.isExpired nowMs = true
    · rw [if_pos hexpired]
      obtain ⟨t, pos, hremove, -, hvalid, hcap, hrebuilds⟩ := h.remove hr
      have hne {a : Nat} (ha : a ∈ batch) : a ≠ addr := by
        intro heq
        rw [heq] at ha
        exact hnodup.1 ha
      have hfirst : Reaped s ⟨t, Function.update s.arena addr none⟩ nowMs := by
        refine ⟨hcap, hrebuilds, fun a r' hr' hlive => ?_⟩
        have hne' : a ≠ addr := by
          intro heq
          rw [heq, hr, some.injEq] at hr'
          rw [← hr', hexpired] at hlive
          simp at hlive
        exact (Function.update_of_ne hne' _ _).trans hr'
      obtain ⟨s', layout', keys, hvisit, hvalid', hreaped, hkeys⟩ := ih hvalid hnodup.2 fun a ha => by
        obtain ⟨r', hr'⟩ := hbatch a (mem_cons_of_mem _ ha)
        exact ⟨r', (Function.update_of_ne (hne ha) _ _).trans hr'⟩
      refine ⟨s', layout', keys, ?_, hvalid', hfirst.trans hreaped, fun a ha r' hr' hlive => ?_⟩
      · rw [hremove]
        exact hvisit
      · rcases mem_cons.mp ha with heq | ha
        · rw [heq, hr, some.injEq] at hr'
          rw [← hr', hexpired] at hlive
          simp at hlive
        · exact hkeys a ha r' (hfirst.kept a r' hr' hlive) hlive
    · rw [if_neg hexpired]
      obtain ⟨s', layout', keys, hvisit, hvalid', hreaped, hkeys⟩ := ih h hnodup.2 (forall_mem_cons.mp hbatch).2
      refine ⟨s', layout', r.key :: keys, ?_, hvalid', hreaped, fun a ha r' hr' hlive => ?_⟩
      · rw [hvisit]
        rfl
      · rcases mem_cons.mp ha with heq | ha
        · rw [heq, hr, some.injEq] at hr'
          rw [hr']
          exact mem_cons_self
        · exact mem_cons_of_mem _ (hkeys a ha r' hr' hlive)

/-- The rank at which a call stops: that of the next cursor, or the end. -/
def stopRank (k : Nat) (cursor : UInt64) : Nat := if cursor = 0 then 2 ^ k else bitReverse k cursor.toNat

/-- The next cursor's rank is the next rank. -/
private theorem stopRank_next {k : Nat} (hk : k < 64) {c : UInt64} (hc : c.toNat < 2 ^ k) :
    stopRank k (nextRevCursor c (UInt64.ofNat (2 ^ k) - 1)) = bitReverse k c.toNat + 1 ∧
      (nextRevCursor c (UInt64.ofNat (2 ^ k) - 1)).toNat < 2 ^ k := by
  have hnext := nextRevCursor_toNat hk hc
  have hr := bitReverse_lt k c.toNat
  split at hnext
  next hlast =>
    have hzero : nextRevCursor c (UInt64.ofNat (2 ^ k) - 1) = 0 := UInt64.toNat_inj.mp hnext
    refine ⟨?_, by rw [hnext]; positivity⟩
    rw [stopRank, if_pos hzero, hlast]
  next hmore =>
    have hlt : bitReverse k c.toNat + 1 < 2 ^ k := by omega
    have hrank : bitReverse k (nextRevCursor c (UInt64.ofNat (2 ^ k) - 1)).toNat = bitReverse k c.toNat + 1 := by
      rw [hnext, bitReverse_bitReverse hlt]
    refine ⟨?_, by rw [hnext]; exact bitReverse_lt k _⟩
    rw [stopRank, if_neg, hrank]
    intro hzero
    rw [hzero] at hrank
    have hz : bitReverse k (0 : UInt64).toNat = 0 := bitReverse_zero k
    omega

/-- A call of `scan` from a cursor: the keys between it and the rank where the call stops. -/
structure Scanned (hasher : Key → UInt64) (nowMs k : Nat) (s : Records Key) (rank visits : Nat) (reply : ScanReply Key) : Prop where
  valid : ∃ layout, reply.records.Valid hasher layout
  reaped : Reaped s reply.records nowMs
  cursor : reply.cursor.toNat < 2 ^ k
  keys : ∀ addr r, s.arena addr = some r → r.isExpired nowMs = false → rank ≤ bitReverse k (hasher r.key).toNat →
    bitReverse k (hasher r.key).toNat < stopRank k reply.cursor → r.key ∈ reply.keys
  visits : reply.visits + rank = visits + stopRank k reply.cursor
  moved : rank < stopRank k reply.cursor

/-- The loop of a call emits every key at home in the groups it passes. -/
theorem scanLoop_spec {count nowMs k turns : Nat} (hk : k < 64) {cursor : UInt64} {keys : List Key} {visits : Nat}
    (h : s.Valid hasher layout) (hgroups : s.index.groupCount = 2 ^ k) (hcursor : cursor.toNat < 2 ^ k)
    (hturns : 2 ^ k ≤ bitReverse k cursor.toNat + turns) :
    ∃ reply, scanLoop hasher count nowMs (UInt64.ofNat (2 ^ k) - 1) turns s cursor keys visits = some reply ∧
      Scanned hasher nowMs k s (bitReverse k cursor.toNat) visits reply ∧ ∀ key ∈ keys, key ∈ reply.keys := by
  induction turns generalizing s layout cursor keys visits with
  | zero =>
    have hr := bitReverse_lt k cursor.toNat
    omega
  | succ turns ih =>
    obtain ⟨s₁, layout₁, found, hvisit, hvalid, hreaped, hfound⟩ := @Valid.visitBatch _ _ _ _ nowMs _ h
      (h.nodup_scanHomeGroup cursor.toNat) fun addr haddr => by
        obtain ⟨r, hr, -⟩ := h.mem_scanHomeGroup.mp haddr
        exact ⟨r, hr⟩
    obtain ⟨hnext, hlt⟩ := stopRank_next hk hcursor
    -- the keys of this rank are those at home in the group
    have hgroup : ∀ addr r, s.arena addr = some r → r.isExpired nowMs = false →
        bitReverse k (hasher r.key).toNat = bitReverse k cursor.toNat → r.key ∈ found := by
      intro addr r hr hlive hrank
      refine hfound addr (h.mem_scanHomeGroup.mpr ⟨r, hr, ?_⟩) r hr hlive
      rw [hgroups]
      exact bitReverse_inj hrank
    have hgroups₁ : s₁.index.groupCount = 2 ^ k := by
      rw [Index.groupCount, hreaped.capacity, ← Index.groupCount, hgroups]
    rw [scanLoop, hvisit, bind_eq_bind, bind_some]
    simp only
    split
    · refine ⟨_, rfl, ⟨⟨layout₁, hvalid⟩, hreaped, hlt, fun addr r hr hlive hle hstop => ?_, ?_, ?_⟩, fun key hkey => ?_⟩
      · simp only [hnext] at hstop
        exact mem_append_right _ (hgroup addr r hr hlive (by omega))
      · simp only [hnext]
        omega
      · simp only [hnext]
        omega
      · exact mem_append_left _ hkey
    next hmore =>
      rw [not_or] at hmore
      have hrank : bitReverse k (nextRevCursor cursor (UInt64.ofNat (2 ^ k) - 1)).toNat = bitReverse k cursor.toNat + 1 := by
        rw [stopRank, if_neg hmore.1] at hnext
        exact hnext
      obtain ⟨reply, hloop, hscanned, hkeys⟩ := @ih _ _ (nextRevCursor cursor (UInt64.ofNat (2 ^ k) - 1)) (keys ++ found) (visits + 1)
        hvalid hgroups₁ hlt (by omega)
      rw [hrank] at hscanned
      refine ⟨reply, hloop, ⟨hscanned.valid, hreaped.trans hscanned.reaped, hscanned.cursor,
        fun addr r hr hlive hle hstop => ?_, ?_, ?_⟩,
        fun key hkey => hkeys key (mem_append_left _ hkey)⟩
      · by_cases hhere : bitReverse k (hasher r.key).toNat = bitReverse k cursor.toNat
        · exact hkeys _ (mem_append_right _ (hgroup addr r hr hlive hhere))
        · exact hscanned.keys addr r (hreaped.kept addr r hr hlive) hlive (by omega) hstop
      · have := hscanned.visits
        omega
      · have := hscanned.moved
        omega

/-- A call returns, and passes the groups from its cursor on. -/
theorem scan_spec {count nowMs k : Nat} {cursor : UInt64} (h : s.Valid hasher layout) (hk : k < 64)
    (hgroups : s.index.groupCount = 2 ^ k) : ∃ reply, s.scan hasher cursor count nowMs = some reply ∧
      Scanned hasher nowMs k s (bitReverse k (cursor.toNat % 2 ^ k)) 0 reply := by
  have hmask := and_groupMask hk cursor
  have hlt : (cursor &&& (UInt64.ofNat (2 ^ k) - 1)).toNat < 2 ^ k := by
    rw [hmask]
    exact Nat.mod_lt _ (by positivity)
  obtain ⟨reply, hloop, hscanned, -⟩ := @scanLoop_spec _ _ _ _ count nowMs k (2 ^ k) hk _ [] 0 h hgroups hlt (by omega)
  rw [hmask] at hscanned
  refine ⟨reply, ?_, hscanned⟩
  rw [scan, hgroups]
  exact hloop

private theorem groupCount_of_capacity {k : Nat} (hgroups : s.index.groupCount = 2 ^ k) (hvalid : s.Valid hasher layout)
    (hcap : s'.index.capacity = s.index.capacity ∨ s'.index.capacity = s.index.capacity * 2) :
    s'.index.groupCount = 2 ^ (k + 0) ∨ s'.index.groupCount = 2 ^ (k + 1) := by
  obtain ⟨k', -, hgroups', hk'⟩ := hvalid.groups
  rw [hgroups] at hgroups'
  rw [← hgroups'] at hk'
  rcases hcap with hcap | hcap
  · left
    exact Index.groupCount_eq (hcap.trans hk')
  · right
    apply Index.groupCount_eq
    rw [hcap, hk', pow_succ]
    ring

variable [DecidableEq Key]

def Holds (s : Records Key) (key : Key) (nowMs : Nat) : Prop :=
  ∃ addr r, s.arena addr = some r ∧ r.key = key ∧ r.isExpired nowMs = false

/-- An iteration under way, with a key that is present at every call: the store, the cursor, the keys
emitted, the group count of each call and the groups visited. Mutations come between the calls. -/
inductive Scanning (hasher : Key → UInt64) (key : Key) : Records Key → UInt64 → List Key → List Nat → Nat → Prop where
  | first {s : Records Key} {count nowMs : Nat} {reply : ScanReply Key} (hreach : Reachable hasher s) (hkey : s.Holds key nowMs)
      (hcount : 0 < count) (hcall : s.scan hasher 0 count nowMs = some reply) :
      Scanning hasher key reply.records reply.cursor reply.keys [s.index.groupCount] reply.visits
  | between {s s' : Records Key} {cursor : UInt64} {keys : List Key} {sizes : List Nat} {visits : Nat}
      (h : Scanning hasher key s cursor keys sizes visits) (hstep : Step hasher s s') :
      Scanning hasher key s' cursor keys sizes visits
  | next {s : Records Key} {cursor : UInt64} {keys : List Key} {sizes : List Nat} {visits count nowMs : Nat} {reply : ScanReply Key}
      (h : Scanning hasher key s cursor keys sizes visits) (hmore : cursor ≠ 0) (hkey : s.Holds key nowMs) (hcount : 0 < count)
      (hcall : s.scan hasher cursor count nowMs = some reply) :
      Scanning hasher key reply.records reply.cursor (keys ++ reply.keys) (sizes ++ [s.index.groupCount]) (visits + reply.visits)

/-- What an iteration has behind it: the key, if its rank is passed, a visit for each call, and as many
visits as ranks while the groups stay. -/
structure Passed (hasher : Key → UInt64) (key : Key) (s : Records Key) (cursor : UInt64) (keys : List Key) (sizes : List Nat)
    (visits : Nat) : Prop where
  valid : ∃ layout, s.Valid hasher layout
  groups : ∃ k, k < 64 ∧ s.index.groupCount = 2 ^ k ∧ cursor.toNat < 2 ^ k ∧
    (bitReverse k (hasher key).toNat < stopRank k cursor → key ∈ keys)
  calls : sizes.length ≤ visits
  visits : ∀ groups, (∀ n ∈ sizes, n = groups) → ∃ k, groups = 2 ^ k ∧ visits = stopRank k cursor

/-- A growth keeps the order of the ranks. -/
private theorem rank_lt_of_double {k j : Nat} {cursor : UInt64} (hcursor : cursor.toNat < 2 ^ k) {hash : Nat}
    (h : bitReverse (k + j) hash < stopRank (k + j) cursor) : bitReverse k hash < stopRank k cursor := by
  rw [stopRank] at h ⊢
  split at h
  next hzero =>
    rw [if_pos hzero]
    exact bitReverse_lt k hash
  next hzero =>
    rw [if_neg hzero, ← bitReverse_div k j hash]
    rw [bitReverse_add k j cursor.toNat, Nat.div_eq_of_lt hcursor, bitReverse_zero, add_zero] at h
    exact Nat.div_lt_of_lt_mul (by rw [mul_comm]; exact h)

theorem Scanning.passed {key : Key} {cursor : UInt64} {keys : List Key} {sizes : List Nat} {visits : Nat}
    (h : Scanning hasher key s cursor keys sizes visits) : Passed hasher key s cursor keys sizes visits := by
  induction h with
  | @first s count nowMs reply hreach hkey _ hcall =>
    obtain ⟨layout, hvalid⟩ := hreach.valid
    obtain ⟨k, hk, hgroups, -⟩ := hvalid.groups
    obtain ⟨reply', hcall', hscanned⟩ := @scan_spec _ _ _ _ count nowMs k 0 hvalid hk hgroups
    rw [hcall, some.injEq] at hcall'
    have hzero : (0 : UInt64).toNat % 2 ^ k = 0 := Nat.zero_mod _
    rw [← hcall', hzero, bitReverse_zero] at hscanned
    obtain ⟨addr, r, hr, hrkey, hlive⟩ := hkey
    have hvisits := hscanned.visits
    have hmoved := hscanned.moved
    refine ⟨hscanned.valid, ⟨k, hk, ?_, hscanned.cursor, fun hlt => ?_⟩, ?_, fun groups hsizes => ⟨k, ?_, by omega⟩⟩
    · rw [Index.groupCount, hscanned.reaped.capacity, ← Index.groupCount, hgroups]
    · rw [← hrkey] at hlt ⊢
      exact hscanned.keys addr r hr hlive zero_le hlt
    · rw [length_singleton]
      omega
    · rw [← hsizes _ mem_cons_self, hgroups]
  | @between s s' cursor keys sizes visits _ hstep ih =>
    obtain ⟨layout, hvalid⟩ := ih.valid
    obtain ⟨k, hk, hgroups, hcursor, hpassed⟩ := ih.groups
    obtain ⟨⟨layout', hvalid'⟩, hcap⟩ := hvalid.step hstep
    refine ⟨⟨layout', hvalid'⟩, ?_, ih.calls, ih.visits⟩
    obtain ⟨k', hk', hgroups', -⟩ := hvalid'.groups
    obtain ⟨j, hj⟩ : ∃ j, k' = k + j := by
      rcases groupCount_of_capacity hgroups hvalid hcap with heq | heq
      · exact ⟨0, Nat.pow_right_injective le_rfl (hgroups'.symm.trans heq)⟩
      · exact ⟨1, Nat.pow_right_injective le_rfl (hgroups'.symm.trans heq)⟩
    refine ⟨k', hk', hgroups', hcursor.trans_le (Nat.pow_le_pow_right (by decide) (by omega)), fun hlt => hpassed ?_⟩
    rw [hj] at hlt
    exact rank_lt_of_double hcursor hlt
  | @next s cursor keys sizes visits count nowMs reply _ hmore hkey _ hcall ih =>
    obtain ⟨layout, hvalid⟩ := ih.valid
    obtain ⟨k, hk, hgroups, hcursor, hpassed⟩ := ih.groups
    obtain ⟨reply', hcall', hscanned⟩ := @scan_spec _ _ _ _ count nowMs k cursor hvalid hk hgroups
    rw [hcall, some.injEq] at hcall'
    rw [← hcall', Nat.mod_eq_of_lt hcursor] at hscanned
    obtain ⟨addr, r, hr, hrkey, hlive⟩ := hkey
    have hrank : stopRank k cursor = bitReverse k cursor.toNat := if_neg hmore
    have hvisits := hscanned.visits
    have hmoved := hscanned.moved
    refine ⟨hscanned.valid, ⟨k, hk, ?_, hscanned.cursor, fun hlt => ?_⟩, ?_, fun groups hsizes => ⟨k, ?_, ?_⟩⟩
    · rw [Index.groupCount, hscanned.reaped.capacity, ← Index.groupCount, hgroups]
    · by_cases hbefore : bitReverse k (hasher key).toNat < bitReverse k cursor.toNat
      · rw [hrank] at hpassed
        exact mem_append_left _ (hpassed hbefore)
      · rw [← hrkey] at hlt hbefore ⊢
        exact mem_append_right _ (hscanned.keys addr r hr hlive (by omega) hlt)
    · have := ih.calls
      rw [length_append, length_singleton]
      omega
    · rw [← hsizes _ (mem_append_right _ mem_cons_self), hgroups]
    · obtain ⟨k', hk', hbefore⟩ := ih.visits groups fun n hn => hsizes n (mem_append_left _ hn)
      have hsame : k' = k := by
        apply Nat.pow_right_injective le_rfl
        simp only
        rw [← hk', ← hsizes _ (mem_append_right _ mem_cons_self), hgroups]
      rw [hsame, hrank] at hbefore
      omega

/-- A full iteration emits every key that stays. Each call visits a group, and while their number stays
the iteration is over exactly when all are visited. No call of it fails. -/
theorem scan_guarantee {key : Key} {cursor : UInt64} {keys : List Key} {sizes : List Nat} {visits : Nat}
    (h : Scanning hasher key s cursor keys sizes visits) :
    (cursor = 0 → key ∈ keys) ∧ sizes.length ≤ visits ∧
      (∀ groups, (∀ n ∈ sizes, n = groups) → visits ≤ groups ∧ (cursor = 0 ↔ visits = groups)) ∧
      ∀ count nowMs, (s.scan hasher cursor count nowMs).isSome = true := by
  have hpassed := h.passed
  obtain ⟨layout, hvalid⟩ := hpassed.valid
  obtain ⟨k, hk, hgroups, hcursor, hkey⟩ := hpassed.groups
  refine ⟨fun hzero => hkey ?_, hpassed.calls, fun groups hsizes => ?_, fun count nowMs => ?_⟩
  · rw [stopRank, if_pos hzero]
    exact bitReverse_lt k _
  · obtain ⟨k', rfl, rfl⟩ := hpassed.visits groups hsizes
    have hlt := bitReverse_lt k' cursor.toNat
    rw [stopRank]
    split
    next hzero => exact ⟨le_rfl, iff_of_true hzero rfl⟩
    next hmore => exact ⟨hlt.le, iff_of_false hmore hlt.ne⟩
  · obtain ⟨reply, hcall, -⟩ := @scan_spec _ _ _ _ count nowMs k cursor hvalid hk hgroups
    rw [hcall]
    rfl

theorem holds_of_arena {s : Records Nat} (h : (s.arena 0).map (fun r => (r.key, r.isExpired 0)) = some (5, false)) : s.Holds 5 0 := by
  obtain ⟨r, hr, hkey⟩ := map_eq_some_iff.mp h
  exact ⟨0, r, hr, (Prod.mk.inj hkey).1, (Prod.mk.inj hkey).2⟩

def firstReply : ScanReply Nat := (pair.scan Nat.toUInt64 0 1 0).get (by decide +kernel)

/-- A record enters between two calls. -/
def grown : Records Nat := (firstReply.records.put 7 2).get (by decide +kernel)

def secondReply : ScanReply Nat := (grown.scan Nat.toUInt64 firstReply.cursor 1 0).get (by decide +kernel)

theorem scan_guarantee_pair : firstReply.cursor ≠ 0 ∧ firstReply.keys = [6] ∧ secondReply.cursor = 0 ∧
    5 ∈ firstReply.keys ++ secondReply.keys ∧ firstReply.visits + secondReply.visits = 2 := by
  have hmore : firstReply.cursor ≠ 0 := by decide +kernel
  have hfirst : pair.scan Nat.toUInt64 0 1 0 = some firstReply := (some_get (by decide +kernel)).symm
  have hsecond : grown.scan Nat.toUInt64 firstReply.cursor 1 0 = some secondReply := (some_get (by decide +kernel)).symm
  have hput : Step Nat.toUInt64 firstReply.records grown := put_step 7 2 (by decide +kernel) (some_get (by decide +kernel)).symm
  have hscan := (Scanning.first pair_reachable (holds_of_arena (by decide +kernel)) Nat.one_pos hfirst).between hput
  have hguarantee := scan_guarantee (hscan.next hmore (holds_of_arena (by decide +kernel)) Nat.one_pos hsecond)
  have hzero : secondReply.cursor = 0 := by decide +kernel
  have hsizes : ∀ n ∈ [pair.index.groupCount] ++ [grown.index.groupCount], n = 2 := by decide +kernel
  have hvisits := (hguarantee.2.2.1 2 hsizes).2.mp hzero
  exact ⟨hmore, by decide +kernel, hzero, hguarantee.1 hzero, by rw [hvisits]⟩

end Records

end InfinityDB
