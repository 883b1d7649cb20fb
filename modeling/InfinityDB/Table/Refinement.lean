import InfinityDB.Table.Layout

/-!
# The table is a multiset of entries

In every run the live slots hold the entries inserted and not removed, and lookups find them. A
removal or a replacement names its entry by address and, as far as the mode keeps it, by hash.
-/

namespace InfinityDB

open Lib Option

variable {mode : SlotMode} {Addr : Type} [DecidableEq Addr]

/-- The mode tells an entry from every other with its address: one that passes for it is under the
same hash. -/
def Exact (mode : SlotMode) (m : Multiset (UInt64 × Addr)) (hash : UInt64) (addr : Addr) : Prop :=
  ∀ hash', (hash', addr) ∈ m → h2 hash' = h2 hash → mode.extMatches (mode.extSet hash') hash = true → hash' = hash

omit [DecidableEq Addr] in
/-- A full hash in the sidecar tells all entries apart. -/
theorem exact_tieredMode (m : Multiset (UInt64 × Addr)) (hash : UInt64) (addr : Addr) : Exact tieredMode m hash addr :=
  fun _ _ _ hext => eq_of_beq hext

namespace Index

variable {t t' : Index mode Addr} {layout : Layout Addr} {hash : UInt64} {addr : Addr}

/-- The position of an entry that the mode tells apart. -/
theorem Rep.positionOf_spec (h : t.Rep layout) (hexact : Exact mode (entries layout) hash addr) :
    (∀ pos, t.positionOf hash addr = some pos → layout[pos]? = some (some (hash, addr))) ∧
      (t.positionOf hash addr = none ↔ (hash, addr) ∉ entries layout) := by
  have hsome : ∀ pos, t.positionOf hash addr = some pos → layout[pos]? = some (some (hash, addr)) := by
    intro pos hpos
    obtain ⟨hash', hentry, htag, hext⟩ := h.positionOf_some hpos
    rw [hexact hash' (mem_entries.mpr ⟨pos, hentry⟩) htag hext] at hentry
    exact hentry
  refine ⟨hsome, fun hnone hmem => h.positionOf_ne_none hmem hnone, fun hout => ?_⟩
  cases hpos : t.positionOf hash addr with
  | none => rfl
  | some pos => exact absurd (mem_entries.mpr ⟨pos, hsome pos hpos⟩) hout

theorem entries_erase {pos : Nat} {e : UInt64 × Addr} (hpos : layout[pos]? = some (some e)) :
    entries (layout.set pos none) = (entries layout).erase e := by
  have hset := @entries_set _ _ _ _ none hpos
  rw [toList_none, Multiset.coe_nil, zero_add, toList_some, Multiset.coe_singleton] at hset
  rw [← hset, Multiset.singleton_add, Multiset.erase_cons_head]

/-- A replacement changes the address of one entry in place. -/
theorem Rep.replace_spec (h : t.Rep layout) {old new : Addr} (hexact : Exact mode (entries layout) hash old)
    (hmem : (hash, old) ∈ entries layout) :
    ∃ t' pos, t.replace hash old new = some t' ∧ layout[pos]? = some (some (hash, old)) ∧
      t'.Rep (layout.set pos (some (hash, new))) ∧ t'.capacity = t.capacity ∧ t'.rebuilds = t.rebuilds := by
  obtain ⟨hsome, hnone⟩ := h.positionOf_spec hexact
  cases hpos : t.positionOf hash old with
  | none => exact absurd hmem (hnone.mp hpos)
  | some pos =>
    have hentry := hsome pos hpos
    obtain ⟨slot, hslot, hkeeps⟩ := h.slot hentry
    have hreplace : t.replace hash old new = some { t with slots := t.slots.set pos (IndexSlot.of mode hash new) } := by
      rw [replace, hpos, bind_eq_bind, bind_some, hslot, hkeeps]
      rfl
    exact ⟨_, pos, hreplace, hentry, h.replaceAt hentry rfl rfl rfl, List.length_set, rfl⟩

theorem entries_replace {pos : Nat} {e e' : UInt64 × Addr} (hpos : layout[pos]? = some (some e)) :
    entries (layout.set pos (some e')) = e' ::ₘ (entries layout).erase e := by
  have hset := @entries_set _ _ _ _ (some e') hpos
  rw [toList_some, toList_some, Multiset.coe_singleton, Multiset.coe_singleton, Multiset.singleton_add,
    Multiset.singleton_add] at hset
  have herase := congrArg (Multiset.erase · e) hset
  simp only [Multiset.erase_cons_head] at herase
  rw [herase]
  by_cases heq : e' = e
  · rw [heq, Multiset.erase_cons_head, Multiset.cons_erase (mem_entries.mpr ⟨pos, hpos⟩)]
  · rw [Multiset.erase_cons_tail _ heq]

theorem Rep.removeIfPresent_spec (h : t.Rep layout) (hexact : Exact mode (entries layout) hash addr) :
    ∃ layout', (t.removeIfPresent hash addr).1.Rep layout' ∧ entries layout' = (entries layout).erase (hash, addr) ∧
      ((t.removeIfPresent hash addr).2 = true ↔ (hash, addr) ∈ entries layout) := by
  obtain ⟨hsome, hnone⟩ := h.positionOf_spec hexact
  rw [removeIfPresent]
  cases hpos : t.positionOf hash addr with
  | none =>
    have hout := hnone.mp hpos
    exact ⟨layout, h, by rw [Multiset.erase_of_notMem hout], by simp [hout]⟩
  | some pos =>
    have hentry := hsome pos hpos
    exact ⟨_, (h.removeAt_spec hentry).1, entries_erase hentry, by simp [mem_entries.mpr ⟨pos, hentry⟩]⟩

theorem Rep.remove_spec (h : t.Rep layout) (hexact : Exact mode (entries layout) hash addr) :
    (t.remove hash addr = none ↔ (hash, addr) ∉ entries layout) ∧
      ∀ t', t.remove hash addr = some t' → ∃ pos, layout[pos]? = some (some (hash, addr)) ∧ t'.Rep (layout.set pos none) ∧
        t'.capacity = t.capacity ∧ t'.rebuilds = t.rebuilds := by
  obtain ⟨hsome, hnone⟩ := h.positionOf_spec hexact
  refine ⟨by rw [remove, map_eq_none_iff, hnone], fun t' hremove => ?_⟩
  rw [remove, map_eq_some_iff] at hremove
  obtain ⟨pos, hpos, hremoved⟩ := hremove
  rw [← hremoved]
  exact ⟨pos, hsome pos hpos, h.removeAt_spec (hsome pos hpos)⟩

/-- `hashOf` gives every entry its hash, from its address or from the sidecar. -/
def Rehashes (mode : SlotMode) (m : Multiset (UInt64 × Addr)) (hashOf : Addr → UInt64 → UInt64) : Prop :=
  ∀ e ∈ m, hashOf e.2 (mode.extHash (mode.extSet e.1)) = e.1

/-- The runs of a table from `withCapacity`, with the entries they leave. -/
inductive Reaches (atLeast : Nat) : Index mode Addr → Multiset (UInt64 × Addr) → Prop where
  | withCapacity : Reaches atLeast (Index.withCapacity atLeast) 0
  | insert {t t' : Index mode Addr} {m : Multiset (UInt64 × Addr)} {hash : UInt64} {addr : Addr} (h : Reaches atLeast t m)
      (hroom : t.needsGrow = false) (hstep : t.insert hash addr = some t') : Reaches atLeast t' ((hash, addr) ::ₘ m)
  | replace {t t' : Index mode Addr} {m : Multiset (UInt64 × Addr)} {hash : UInt64} {old new : Addr} (h : Reaches atLeast t m)
      (hexact : Exact mode m hash old) (hstep : t.replace hash old new = some t') :
      Reaches atLeast t' ((hash, new) ::ₘ m.erase (hash, old))
  | remove {t t' : Index mode Addr} {m : Multiset (UInt64 × Addr)} {hash : UInt64} {addr : Addr} (h : Reaches atLeast t m)
      (hexact : Exact mode m hash addr) (hstep : t.remove hash addr = some t') : Reaches atLeast t' (m.erase (hash, addr))
  | removeIfPresent {t : Index mode Addr} {m : Multiset (UInt64 × Addr)} (hash : UInt64) (addr : Addr) (h : Reaches atLeast t m)
      (hexact : Exact mode m hash addr) : Reaches atLeast (t.removeIfPresent hash addr).1 (m.erase (hash, addr))
  | grow {t t' : Index mode Addr} {m : Multiset (UInt64 × Addr)} (hashOf : Addr → UInt64 → UInt64) (h : Reaches atLeast t m)
      (hhash : Rehashes mode m hashOf) (hstep : t.grow hashOf = some t') : Reaches atLeast t' m

omit [DecidableEq Addr] in
theorem needsGrow_eq_false : t.needsGrow = false ↔ (t.live + t.tombstones + 1) * 100 ≤ t.capacity * 85 := by
  rw [needsGrow, decide_eq_false_iff_not, Nat.not_lt]

theorem nextPowerOfTwo_eq (n : Nat) : ∃ k, nextPowerOfTwo n = 2 ^ k := by
  rw [nextPowerOfTwo]
  split
  · exact ⟨0, rfl⟩
  · exact ⟨_, rfl⟩

omit [DecidableEq Addr] in
theorem withCapacity_rep (atLeast : Nat) : ∃ layout, (withCapacity atLeast : Index mode Addr).Rep layout ∧ entries layout = 0 := by
  obtain ⟨k, hk⟩ := nextPowerOfTwo_eq ((max atLeast 1 * 100 + 84) / 85)
  have hsize : ∃ j, max (nextPowerOfTwo ((max atLeast 1 * 100 + 84) / 85)) GROUP = 2 ^ j * GROUP := by
    rw [hk]
    rcases Nat.lt_or_ge k 4 with hlt | hge
    · refine ⟨0, ?_⟩
      have hle : 2 ^ k ≤ 2 ^ 4 := Nat.pow_le_pow_right (by decide) hlt.le
      exact Nat.max_eq_right hle
    · refine ⟨k - 4, ?_⟩
      have hle : 2 ^ 4 ≤ 2 ^ k := Nat.pow_le_pow_right (by decide) hge
      rw [show GROUP = 2 ^ 4 from rfl, Nat.max_eq_left hle, ← pow_add, Nat.sub_add_cancel hge]
  obtain ⟨j, hj⟩ := hsize
  rw [withCapacity]
  simp only [hj]
  exact ⟨_, fresh_rep 0, entries_fresh _⟩

theorem Reaches.rep {atLeast : Nat} {m : Multiset (UInt64 × Addr)} (h : Reaches atLeast t m) :
    ∃ layout, t.Rep layout ∧ entries layout = m := by
  induction h with
  | withCapacity => exact withCapacity_rep atLeast
  | @insert t t' m hash addr _ hroom hstep ih =>
    obtain ⟨layout, hrep, rfl⟩ := ih
    obtain ⟨t₁, pos, hinsert, hpos, hrep₁, -⟩ := hrep.insert_spec hash addr (needsGrow_eq_false.mp hroom)
    rw [hinsert, some.injEq] at hstep
    rw [← hstep]
    refine ⟨_, hrep₁, ?_⟩
    have hset := @entries_set _ _ _ _ (some (hash, addr)) hpos
    rw [toList_none, Multiset.coe_nil, zero_add, toList_some, Multiset.coe_singleton, Multiset.singleton_add] at hset
    exact hset
  | @replace t t' m hash old new _ hexact hstep ih =>
    obtain ⟨layout, hrep, rfl⟩ := ih
    by_cases hmem : (hash, old) ∈ entries layout
    · obtain ⟨t₁, pos, hreplace, hpos, hrep₁, -⟩ := @Rep.replace_spec _ _ _ _ _ _ hrep old new hexact hmem
      rw [hreplace, some.injEq] at hstep
      rw [← hstep]
      exact ⟨_, hrep₁, entries_replace hpos⟩
    · rw [Index.replace, (hrep.positionOf_spec hexact).2.mpr hmem] at hstep
      simp at hstep
  | remove _ hexact hstep ih =>
    obtain ⟨layout, hrep, rfl⟩ := ih
    obtain ⟨pos, hpos, hrep₁, -⟩ := (hrep.remove_spec hexact).2 _ hstep
    exact ⟨_, hrep₁, entries_erase hpos⟩
  | removeIfPresent hash addr _ hexact ih =>
    obtain ⟨layout, hrep, rfl⟩ := ih
    obtain ⟨layout', hrep', hentries, -⟩ := hrep.removeIfPresent_spec hexact
    exact ⟨layout', hrep', hentries⟩
  | grow hashOf _ hhash hstep ih =>
    obtain ⟨layout, hrep, rfl⟩ := ih
    obtain ⟨t₁, layout', hgrow, hrep', hentries, -⟩ := hrep.grow_spec hhash
    rw [hgrow, some.injEq] at hstep
    rw [← hstep]
    exact ⟨layout', hrep', hentries⟩

/-- The slot of each entry, in the group its probe sequence reaches before any empty slot. -/
structure Represents (t : Index mode Addr) (m : Multiset (UInt64 × Addr)) (layout : Layout Addr) : Prop where
  entries_eq : entries layout = m
  length : layout.length = t.capacity
  slots : ∀ (pos : Nat) slot entry, t.slots[pos]? = some slot → layout[pos]? = some entry → Keeps slot entry
  reached : ∀ (pos : Nat) e, layout[pos]? = some (some e) →
    ∃ before after, t.probes e.1.toNat = before ++ pos / GROUP :: after ∧ ∀ group ∈ before, t.hasEmpty group = false
  live : t.live = m.card
  tombstones : t.tombstones = t.slots.countP IndexSlot.isTomb

/-- A table refines the multiset of its entries: its slots and counters are exact, lookups find the
entries, and no insertion that does not need to grow runs out of slots. -/
theorem index_refines_multiset {atLeast : Nat} {m : Multiset (UInt64 × Addr)} (h : Reaches atLeast t m) :
    (∃ layout, t.Represents m layout) ∧ (∀ hash verify addr, t.find hash verify = some addr →
      ∃ hash', (hash', addr) ∈ m ∧ h2 hash' = h2 hash ∧ verify addr = true) ∧
    (∀ hash verify, t.find hash verify = none → ∀ addr, (hash, addr) ∈ m → verify addr = false) ∧
    (t.needsGrow = false → ∀ hash addr, (t.insert hash addr).isSome = true) ∧ (∀ hash addr, Exact mode m hash addr →
      (∀ new, (t.replace hash addr new).isSome = true ↔ (hash, addr) ∈ m) ∧
      ((t.remove hash addr).isSome = true ↔ (hash, addr) ∈ m) ∧
      ((t.removeIfPresent hash addr).2 = true ↔ (hash, addr) ∈ m)) ∧
    ∀ hashOf, Rehashes mode m hashOf → ∃ t', t.grow hashOf = some t' ∧ t'.needsGrow = false := by
  obtain ⟨layout, hrep, hm⟩ := h.rep
  rw [← hm]
  refine ⟨⟨layout, rfl, hrep.length, hrep.keeps, fun pos e hpos => mem_takeThrough.mp (hrep.chained pos e hpos), ?_, hrep.tombstones⟩,
    fun hash verify addr hfind => ?_, fun hash verify hfind addr hmem => ?_, fun hroom hash addr => ?_,
    fun hash addr hexact => ⟨fun new => ?_, ?_, ?_⟩, fun hashOf hhash => ?_⟩
  · rw [hrep.live, card_entries]
  · obtain ⟨hash', hmem, htag, -, hverify⟩ := hrep.find_some hfind
    exact ⟨hash', hmem, htag, hverify⟩
  · rw [← Bool.not_eq_true]
    intro hverify
    exact hrep.find_ne_none hmem hverify hfind
  · obtain ⟨t', pos, hinsert, -⟩ := hrep.insert_spec hash addr (needsGrow_eq_false.mp hroom)
    rw [hinsert]
    rfl
  · constructor
    · intro hsome
      by_contra hout
      rw [replace, (hrep.positionOf_spec hexact).2.mpr hout] at hsome
      simp at hsome
    · intro hmem
      obtain ⟨t', pos, hreplace, -⟩ := @Rep.replace_spec _ _ _ _ _ _ hrep addr new hexact hmem
      rw [hreplace]
      rfl
  · rw [← ne_none_iff_isSome, ne_eq, (hrep.remove_spec hexact).1, not_not]
  · obtain ⟨-, -, -, hpresent⟩ := hrep.removeIfPresent_spec hexact
    exact hpresent
  · obtain ⟨t', -, hgrow, -, -, hroom, -⟩ := hrep.grow_spec hhash
    exact ⟨t', hgrow, hroom⟩

/-- One insertion after another, each while there is room for it. -/
def insertAll (t : Index mode Addr) (es : List (UInt64 × Addr)) : Option (Index mode Addr) :=
  es.foldlM (fun t e => if t.needsGrow then none else t.insert e.1 e.2) t

theorem Reaches.insertAll {atLeast : Nat} {m : Multiset (UInt64 × Addr)} {es : List (UInt64 × Addr)} (h : Reaches atLeast t m)
    (hrun : t.insertAll es = some t') : Reaches atLeast t' (es + m) := by
  induction es generalizing t m with
  | nil =>
    rw [← some.inj hrun, Multiset.coe_nil, zero_add]
    exact h
  | cons e es ih =>
    obtain ⟨t₁, hinsert, hrun⟩ := bind_eq_some_iff.mp hrun
    dsimp only at hinsert
    split at hinsert
    · simp at hinsert
    next hroom =>
      rw [← Multiset.cons_coe, Multiset.cons_add, ← Multiset.add_cons]
      exact ih (h.insert (Bool.eq_false_iff.mpr hroom) hinsert) hrun

/-- Seventeen entries of one home group, in two groups of slots. -/
def crowd : List (UInt64 × Nat) := (List.range 17).map fun i => (0, i)

/-- The chain of the crowd passes a tombstone, and the table grows with it. -/
theorem index_refines_multiset_crowd : ∃ (t t' : Index tieredMode Nat) (m : Multiset (UInt64 × Nat)),
    m = (crowd : Multiset (UInt64 × Nat)).erase (0, 3) ∧ ((Index.withCapacity 20).insertAll crowd).bind (remove · 0 3) = some t ∧
      t.tombstones = 1 ∧ t.capacity = 32 ∧ t.grow (fun _ ext => ext) = some t' ∧ t'.capacity = 64 ∧
      (∃ layout, t.Represents m layout) ∧ (∃ layout, t'.Represents m layout) ∧ t'.needsGrow = false := by
  have hsome : (((Index.withCapacity 20 : Index tieredMode Nat).insertAll crowd).bind (remove · 0 3)).any
      (fun t => t.tombstones = 1 ∧ t.capacity = 32 ∧ (t.grow fun _ ext => ext).any (·.capacity = 64)) = true := by decide +kernel
  obtain ⟨t, hrun, hsome⟩ := (Option.any_eq_true _ _).mp hsome
  obtain ⟨htomb, hcap, hgrown⟩ := of_decide_eq_true hsome
  obtain ⟨t', hgrow, hcap'⟩ := (Option.any_eq_true _ _).mp hgrown
  obtain ⟨t₁, hinserts, hremove⟩ := bind_eq_some_iff.mp hrun
  have hreach := (Reaches.withCapacity.insertAll hinserts).remove (exact_tieredMode _ _ _) hremove
  rw [add_zero] at hreach
  have hrehashes : Rehashes tieredMode ((crowd : Multiset (UInt64 × Nat)).erase (0, 3)) fun _ ext => ext := fun _ _ => rfl
  obtain ⟨t'', hgrow', hroom⟩ := (index_refines_multiset hreach).2.2.2.2.2 _ hrehashes
  obtain rfl := some.inj (hgrow'.symm.trans hgrow)
  exact ⟨t, t'', _, rfl, hrun, htomb, hcap, hgrow, of_decide_eq_true hcap', (index_refines_multiset hreach).1,
    (index_refines_multiset (hreach.grow _ hrehashes hgrow)).1, hroom⟩

/-- Two hashes with one tag and another fingerprint. -/
def lowHash : UInt64 := 0

def fragmentHash : UInt64 := 4398046511104

/-- Without a sidecar an address entered under two hashes of one tag is removed under the first. -/
theorem memory_remove_takes_first : (Index.withCapacity 1 : Index memoryMode Nat).needsGrow = false ∧
      ((Index.withCapacity 1 : Index memoryMode Nat).insert lowHash 7).map needsGrow = some false ∧
      ((((Index.withCapacity 1 : Index memoryMode Nat).insert lowHash 7).bind (insert · fragmentHash 7)).bind
        (remove · fragmentHash 7)).map (find · lowHash fun _ => true) = some none := by
  refine ⟨?_, ?_, ?_⟩ <;> decide +kernel

end Index

end InfinityDB
