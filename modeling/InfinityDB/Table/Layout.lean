import InfinityDB.Table.Index

/-!
# The entries of the table

A layout names the entry of each live slot: its full hash and its address. An entry lies on the
probe chain of its hash, and every operation keeps that: a slot is emptied only in a group where
chains end anyway.
-/

namespace InfinityDB

open Lib List Option

/-- What each slot stands for. -/
abbrev Layout (Addr : Type) := List (Option (UInt64 × Addr))

variable {mode : SlotMode} {Addr : Type}

def entries (layout : Layout Addr) : Multiset (UInt64 × Addr) := ↑layout.reduceOption

theorem mem_entries {layout : Layout Addr} {e : UInt64 × Addr} :
    e ∈ entries layout ↔ ∃ pos : Nat, layout[pos]? = some (some e) := by
  rw [entries, Multiset.mem_coe, reduceOption_mem_iff, mem_iff_getElem?]

theorem card_entries (layout : Layout Addr) : (entries layout).card = layout.countP Option.isSome := by
  rw [entries, Multiset.coe_card, reduceOption_length_eq, countP_eq_length_filter]

theorem entries_set {layout : Layout Addr} {pos : Nat} {old new : Option (UInt64 × Addr)} (h : layout[pos]? = some old) :
    (old.toList : Multiset (UInt64 × Addr)) + entries (layout.set pos new) = new.toList + entries layout := by
  induction layout generalizing pos with
  | nil => simp at h
  | cons c layout ih =>
    have hcons (c : Option (UInt64 × Addr)) (l : Layout Addr) : entries (c :: l) = c.toList + entries l := by
      cases c <;> simp [entries]
    cases pos with
    | zero =>
      rw [getElem?_cons_zero, some.injEq] at h
      rw [set_cons_zero, hcons, hcons, h]
      exact add_left_comm _ _ _
    | succ pos =>
      rw [getElem?_cons_succ] at h
      rw [set_cons_succ, hcons, hcons, add_left_comm, ih h]
      exact add_left_comm _ _ _

theorem countP_set {α : Type} {p : α → Bool} {l : List α} {pos : Nat} {old new : α} (h : l[pos]? = some old) :
    (if p old then 1 else 0) + (l.set pos new).countP p = (if p new then 1 else 0) + l.countP p := by
  obtain ⟨hpos, rfl⟩ := List.getElem?_eq_some_iff.mp h
  have hle := boole_getElem_le_countP (p := p) hpos
  rw [List.countP_set hpos]
  omega

/-- A slot holds the word of its entry, or nothing. -/
def Keeps (slot : IndexSlot mode Addr) : Option (UInt64 × Addr) → Prop
  | some e => slot = .of mode e.1 e.2
  | none => slot.special = true

namespace Index

/-- A table with its layout. Capacities are whole groups, a power of two of them. -/
structure Rep (t : Index mode Addr) (layout : Layout Addr) : Prop where
  groups : ∃ k, t.capacity = 2 ^ k * GROUP
  length : layout.length = t.capacity
  keeps : ∀ (pos : Nat) slot entry, t.slots[pos]? = some slot → layout[pos]? = some entry → Keeps slot entry
  chained : ∀ (pos : Nat) e, layout[pos]? = some (some e) → pos / GROUP ∈ t.chain e.1.toNat
  live : t.live = layout.countP Option.isSome
  tombstones : t.tombstones = t.slots.countP IndexSlot.isTomb
  load : (t.live + t.tombstones) * 100 ≤ t.capacity * 85

variable {t t' : Index mode Addr} {layout : Layout Addr} {hash : UInt64} {addr : Addr}

variable {group pos : Nat}

theorem mem_positions : pos ∈ positions group ↔ pos / GROUP = group := by
  simp only [positions, GROUP, List.mem_map, mem_range]
  constructor
  · intro h
    obtain ⟨i, hi, rfl⟩ := h
    omega
  · intro h
    exact ⟨pos % 16, by omega, by omega⟩

theorem slotIs_eq_true {p : IndexSlot mode Addr → Bool} :
    t.slotIs p pos = true ↔ ∃ slot, t.slots[pos]? = some slot ∧ p slot = true := by
  rw [slotIs, Option.any_eq_true]

theorem hasEmpty_eq_true :
    t.hasEmpty group = true ↔ ∃ pos, pos / GROUP = group ∧ t.slotIs IndexSlot.isEmpty pos = true := by
  rw [hasEmpty, List.any_eq_true]
  simp only [mem_positions]

theorem Rep.slot (h : t.Rep layout) {entry : Option (UInt64 × Addr)} (hentry : layout[pos]? = some entry) :
    ∃ slot, t.slots[pos]? = some slot ∧ Keeps slot entry := by
  have hlt : pos < t.slots.length := by
    rw [← capacity, ← h.length]
    exact (List.getElem?_eq_some_iff.mp hentry).1
  exact ⟨_, getElem?_eq_getElem hlt, h.keeps pos _ entry (getElem?_eq_getElem hlt) hentry⟩

theorem Rep.entry (h : t.Rep layout) {slot : IndexSlot mode Addr} (hslot : t.slots[pos]? = some slot) :
    ∃ entry, layout[pos]? = some entry ∧ Keeps slot entry := by
  have hlt : pos < layout.length := by
    rw [h.length]
    exact (List.getElem?_eq_some_iff.mp hslot).1
  exact ⟨_, getElem?_eq_getElem hlt, h.keeps pos slot _ hslot (getElem?_eq_getElem hlt)⟩

theorem mem_flatMap_positions {groups : List Nat} : pos ∈ groups.flatMap positions ↔ pos / GROUP ∈ groups := by
  rw [mem_flatMap]
  simp only [mem_positions]
  exact exists_eq_right'

theorem slotIs_set {p : IndexSlot mode Addr → Bool} {q : Nat} {slot : IndexSlot mode Addr} (hpos : pos < t.capacity)
    (hslots : t'.slots = t.slots.set pos slot) : t'.slotIs p q = if q = pos then p slot else t.slotIs p q := by
  rw [slotIs, slotIs, hslots]
  split
  next heq =>
    rw [heq, getElem?_set_self hpos]
    rfl
  next hne => rw [getElem?_set_ne fun heq => hne heq.symm]

private theorem chain_mono (hcap : t'.capacity = t.capacity) (hempty : ∀ g, t'.hasEmpty g = true → t.hasEmpty g = true) {home : Nat}
    (h : group ∈ t.chain home) : group ∈ t'.chain home := by
  rw [chain, probes, groupCount, hcap]
  exact mem_takeThrough_of_imp hempty h

/-- A slot written so that no chain ends earlier. -/
theorem Rep.write {pos : Nat} {slot : IndexSlot mode Addr} {entry : Option (UInt64 × Addr)} (h : t.Rep layout)
    (hpos : pos < t.capacity) (hslots : t'.slots = t.slots.set pos slot) (hkeeps : Keeps slot entry)
    (hempty : ∀ g, t'.hasEmpty g = true → t.hasEmpty g = true)
    (hchain : ∀ e, entry = some e → pos / GROUP ∈ t.chain e.1.toNat)
    (hlive : t'.live = (layout.set pos entry).countP Option.isSome)
    (htombs : t'.tombstones = t'.slots.countP IndexSlot.isTomb) (hload : (t'.live + t'.tombstones) * 100 ≤ t.capacity * 85) :
    t'.Rep (layout.set pos entry) := by
  have hcap : t'.capacity = t.capacity := by rw [capacity, hslots, length_set, capacity]
  refine ⟨by rw [hcap]; exact h.groups, by rw [length_set, h.length, hcap], fun q s e hs he => ?_, fun q e he => ?_, hlive,
    htombs, by rw [hcap]; exact hload⟩
  · rw [hslots] at hs
    by_cases heq : pos = q
    · rw [← heq, getElem?_set_self hpos] at hs
      rw [← heq, getElem?_set_self (by rw [h.length]; exact hpos)] at he
      rw [← some.inj hs, ← some.inj he]
      exact hkeeps
    · rw [getElem?_set_ne heq] at hs he
      exact h.keeps q s e hs he
  · apply chain_mono hcap hempty
    by_cases heq : pos = q
    · rw [← heq, getElem?_set_self (by rw [h.length]; exact hpos)] at he
      rw [← heq]
      exact hchain e (some.inj he)
    · rw [getElem?_set_ne heq] at he
      exact h.chained q e he

/-- A slot with an entry in it is not empty. -/
theorem Keeps.not_empty {slot : IndexSlot mode Addr} {e : UInt64 × Addr} (h : Keeps slot (some e)) :
    slot.isEmpty = false ∧ slot.isTomb = false ∧ slot.special = false := by
  rw [h]
  exact ⟨rfl, rfl, rfl⟩

theorem lt_capacity (h : t.Rep layout) {entry : Option (UInt64 × Addr)} (hentry : layout[pos]? = some entry) :
    pos < t.capacity := by
  rw [← h.length]
  exact (List.getElem?_eq_some_iff.mp hentry).1

theorem groupCount_eq {k : Nat} (h : t.capacity = 2 ^ k * GROUP) : t.groupCount = 2 ^ k := by
  rw [groupCount, h]
  exact Nat.mul_div_cancel _ (by decide)

/-- Below the load limit some slot is free. -/
theorem Rep.exists_special (h : t.Rep layout) (hlive : t.live < t.capacity) :
    ∃ pos, pos < t.capacity ∧ t.slotIs IndexSlot.special pos = true := by
  by_contra hnone
  have hall : ∀ e ∈ layout, e.isSome = true := by
    intro e he
    obtain ⟨pos, hpos⟩ := mem_iff_getElem?.mp he
    obtain ⟨slot, hslot, hkeeps⟩ := h.slot hpos
    cases e with
    | some e => rfl
    | none =>
      apply absurd _ hnone
      exact ⟨pos, lt_capacity h hpos, slotIs_eq_true.mpr ⟨slot, hslot, hkeeps⟩⟩
  have hcount := countP_eq_length.mpr hall
  have hlen := h.length
  have := h.live
  omega

/-- The first hit lies in a group before which there is none. -/
private theorem find_positions {groups : List Nat} {p : Nat → Bool} (h : (groups.flatMap positions).find? p = some pos) :
    pos / GROUP ∈ takeThrough (fun g => (positions g).any p) groups := by
  induction groups with
  | nil => simp at h
  | cons g groups ih =>
    rw [flatMap_cons, find?_append] at h
    rw [takeThrough, mem_cons]
    cases hfind : (positions g).find? p with
    | some q =>
      rw [hfind, some_or, some.injEq] at h
      rw [← h]
      exact .inl (mem_positions.mp (mem_of_find?_eq_some hfind))
    | none =>
      rw [hfind, none_or] at h
      right
      rw [if_neg]
      · exact ih h
      · rw [List.any_eq_true]
        intro hany
        obtain ⟨q, hq, hpq⟩ := hany
        exact find?_eq_none.mp hfind q hq hpq

section
variable (h : t.Rep layout)
include h

/-- The slot an insertion fills: the first free one of its probe sequence. -/
theorem Rep.insert_spec (hash : UInt64) (addr : Addr) (hroom : (t.live + t.tombstones + 1) * 100 ≤ t.capacity * 85) :
    ∃ t' pos, t.insert hash addr = some t' ∧ layout[pos]? = some none ∧ t'.Rep (layout.set pos (some (hash, addr))) ∧
      t'.capacity = t.capacity ∧ t'.rebuilds = t.rebuilds ∧ t'.live = t.live + 1 ∧ t'.tombstones ≤ t.tombstones := by
  obtain ⟨k, hk⟩ := h.groups
  obtain ⟨free, hfree, hspecial⟩ := h.exists_special (by omega)
  cases hfind : ((t.probes hash.toNat).flatMap positions).find? (t.slotIs IndexSlot.special) with
  | none =>
    have hmem : free ∈ (t.probes hash.toNat).flatMap positions := by
      rw [mem_flatMap_positions, probes, groupCount_eq hk]
      apply mem_probeSeq
      rw [Nat.div_lt_iff_lt_mul (by decide), ← hk]
      exact hfree
    exact absurd hspecial (find?_eq_none.mp hfind free hmem)
  | some pos =>
    obtain ⟨slot, hslot, hspec⟩ := slotIs_eq_true.mp (find?_some hfind)
    obtain ⟨entry, hentry, hkeeps⟩ := h.entry hslot
    have hnone : entry = none := by
      cases entry with
      | none => rfl
      | some e => exact absurd hspec (by rw [(Keeps.not_empty hkeeps).2.2]; simp)
    rw [hnone] at hentry
    have hlt := lt_capacity h hentry
    have hchain : pos / GROUP ∈ t.chain hash.toNat := by
      apply mem_takeThrough_of_imp _ (find_positions hfind)
      intro g hg
      obtain ⟨q, hq, hempty⟩ := hasEmpty_eq_true.mp hg
      obtain ⟨s, hs, hse⟩ := slotIs_eq_true.mp hempty
      rw [List.any_eq_true]
      refine ⟨q, mem_positions.mpr hq, slotIs_eq_true.mpr ⟨s, hs, ?_⟩⟩
      cases s with
      | empty | tomb => rfl
      | live _ _ _ _ => simp [IndexSlot.isEmpty] at hse
    have hcount := @countP_set _ Option.isSome _ _ _ (some (hash, addr)) hentry
    have htomb := @countP_set _ IndexSlot.isTomb _ _ _ (IndexSlot.of mode hash addr) hslot
    have hisTomb : t.slotIs IndexSlot.isTomb pos = slot.isTomb := by
      rw [slotIs, hslot]
      rfl
    have hnot : (IndexSlot.of mode hash addr).isTomb = false := rfl
    simp only [isSome_none, isSome_some, Bool.false_eq_true, if_false, if_true, hnot] at hcount htomb
    have hlive := h.live
    have htombs := h.tombstones
    refine ⟨{ t with
      slots := t.slots.set pos (IndexSlot.of mode hash addr)
      live := t.live + 1
      tombstones := if t.slotIs IndexSlot.isTomb pos then t.tombstones - 1 else t.tombstones }, pos, by rw [insert, hfind]; rfl,
      hentry, ?_, length_set, rfl, rfl, ?_⟩
    · refine h.write hlt rfl rfl (fun g hg => ?_) (fun e he => ?_) ?_ ?_ ?_
      · obtain ⟨q, hq, hempty⟩ := hasEmpty_eq_true.mp hg
        rw [slotIs_set hlt rfl] at hempty
        split at hempty
        · simp [IndexSlot.of, IndexSlot.isEmpty] at hempty
        · exact hasEmpty_eq_true.mpr ⟨q, hq, hempty⟩
      · rw [← some.inj he]
        exact hchain
      · simp only
        omega
      · simp only [hisTomb]
        cases hs : slot.isTomb with
        | true =>
          rw [if_pos hs] at htomb
          rw [if_pos rfl]
          omega
        | false =>
          rw [if_neg (by simp [hs])] at htomb
          rw [if_neg (by simp)]
          omega
      · simp only [hisTomb]
        split <;> omega
    · simp only [hisTomb]
      split <;> omega

/-- What `positionOf` finds: the address under a hash that passes for the one asked. -/
theorem Rep.positionOf_some [DecidableEq Addr] {pos : Nat} (hfind : t.positionOf hash addr = some pos) :
    ∃ hash', layout[pos]? = some (some (hash', addr)) ∧ h2 hash' = h2 hash ∧ mode.extMatches (mode.extSet hash') hash = true := by
  obtain ⟨slot, hslot, hpass⟩ := slotIs_eq_true.mp (find?_some hfind)
  obtain ⟨entry, hentry, hkeeps⟩ := h.entry hslot
  cases entry with
  | none =>
    cases slot with
    | empty | tomb => simp at hpass
    | live _ _ _ _ => simp [Keeps, IndexSlot.special] at hkeeps
  | some e =>
    rw [hkeeps, IndexSlot.of] at hpass
    obtain ⟨htag, haddr, hext⟩ := of_decide_eq_true hpass
    refine ⟨e.1, ?_, htag, hext⟩
    rw [← haddr]
    exact hentry

/-- An entry is found, or another that passes for it. -/
theorem Rep.positionOf_ne_none [DecidableEq Addr] (hmem : (hash, addr) ∈ entries layout) :
    t.positionOf hash addr ≠ none := by
  obtain ⟨pos, hpos⟩ := mem_entries.mp hmem
  obtain ⟨slot, hslot, hkeeps⟩ := h.slot hpos
  intro hnone
  refine find?_eq_none.mp hnone pos (mem_flatMap_positions.mpr (h.chained pos _ hpos)) ?_
  rw [slotIs_eq_true]
  refine ⟨slot, hslot, ?_⟩
  rw [hkeeps]
  exact decide_eq_true ⟨rfl, rfl, mode.matches_set hash⟩

/-- What `find` returns is an address of an entry with the hash's fragments that passes. -/
theorem Rep.find_some {verify : Addr → Bool} (hfind : t.find hash verify = some addr) :
    ∃ hash', (hash', addr) ∈ entries layout ∧ h2 hash' = h2 hash ∧ fp15 hash' = fp15 hash ∧ verify addr = true := by
  obtain ⟨pos, -, hpos⟩ := exists_of_findSome?_eq_some hfind
  obtain ⟨hcand, hverify⟩ := filter_eq_some_iff.mp hpos
  obtain ⟨slot, hslot, hcand⟩ := bind_eq_some_iff.mp hcand
  obtain ⟨entry, hentry, hkeeps⟩ := h.entry hslot
  cases entry with
  | none =>
    cases slot with
    | empty | tomb => simp [IndexSlot.candidate] at hcand
    | live _ _ _ _ => simp [Keeps, IndexSlot.special] at hkeeps
  | some e =>
    rw [hkeeps, IndexSlot.of, IndexSlot.candidate] at hcand
    split at hcand
    next hfragments =>
      refine ⟨e.1, ?_, hfragments.1, hfragments.2, hverify⟩
      rw [← some.inj hcand]
      exact mem_entries.mpr ⟨pos, hentry⟩
    · simp at hcand

theorem Rep.find_ne_none {verify : Addr → Bool} (hmem : (hash, addr) ∈ entries layout)
    (hverify : verify addr = true) : t.find hash verify ≠ none := by
  obtain ⟨pos, hpos⟩ := mem_entries.mp hmem
  obtain ⟨slot, hslot, hkeeps⟩ := h.slot hpos
  intro hnone
  have hpass := findSome?_eq_none_iff.mp hnone pos (mem_flatMap_positions.mpr (h.chained pos _ hpos))
  rw [hslot, hkeeps, bind_some, IndexSlot.of, IndexSlot.candidate, if_pos ⟨rfl, rfl⟩] at hpass
  simp [hverify] at hpass

/-- The entry of a slot exchanged for one with the same hash. -/
theorem Rep.replaceAt {pos : Nat} {old new : Addr} (hpos : layout[pos]? = some (some (hash, old)))
    (hslots : t'.slots = t.slots.set pos (IndexSlot.of mode hash new)) (hlive : t'.live = t.live)
    (htombs : t'.tombstones = t.tombstones) : t'.Rep (layout.set pos (some (hash, new))) := by
  have hlt := lt_capacity h hpos
  obtain ⟨slot, hslot, hkeeps⟩ := h.slot hpos
  have hcount := @countP_set _ Option.isSome _ _ _ (some (hash, new)) hpos
  have htomb := @countP_set _ IndexSlot.isTomb _ _ _ (IndexSlot.of mode hash new) hslot
  have hnot : (IndexSlot.of mode hash new).isTomb = false := rfl
  simp only [isSome_some, hnot, (Keeps.not_empty hkeeps).2.1] at hcount htomb
  refine h.write hlt hslots rfl (fun g hg => ?_) (fun e he => ?_) ?_ ?_ ?_
  · obtain ⟨q, hq, hempty⟩ := hasEmpty_eq_true.mp hg
    rw [slotIs_set hlt hslots] at hempty
    split at hempty
    · simp [IndexSlot.of, IndexSlot.isEmpty] at hempty
    · exact hasEmpty_eq_true.mpr ⟨q, hq, hempty⟩
  · rw [← some.inj he]
    exact h.chained pos (hash, old) hpos
  · have := h.live
    omega
  · have := h.tombstones
    rw [hslots]
    omega
  · rw [hlive, htombs]
    exact h.load

/-- An entry taken out. Its slot turns empty only where its group had an empty slot before. -/
theorem Rep.removeAt_spec {pos : Nat} {e : UInt64 × Addr} (hpos : layout[pos]? = some (some e)) :
    (t.removeAt pos).Rep (layout.set pos none) ∧ (t.removeAt pos).capacity = t.capacity ∧
      (t.removeAt pos).rebuilds = t.rebuilds := by
  have hlt := lt_capacity h hpos
  obtain ⟨slot, hslot, hkeeps⟩ := h.slot hpos
  have hcount := @countP_set _ Option.isSome _ _ _ none hpos
  simp only [isSome_some, isSome_none, if_true, Bool.false_eq_true, if_false] at hcount
  have hlive := h.live
  have htombs := h.tombstones
  have hload := h.load
  rw [removeAt]
  split
  next hempty =>
    have htomb := @countP_set _ IndexSlot.isTomb _ _ _ .empty hslot
    have hnot : (IndexSlot.empty : IndexSlot mode Addr).isTomb = false := rfl
    simp only [hnot, (Keeps.not_empty hkeeps).2.1] at htomb
    refine ⟨h.write hlt rfl rfl (fun g hg => ?_) (fun e he => absurd he (by simp)) ?_ ?_ ?_, length_set, rfl⟩
    · obtain ⟨q, hq, hemptyq⟩ := hasEmpty_eq_true.mp hg
      rw [slotIs_set hlt rfl] at hemptyq
      split at hemptyq
      next heq =>
        rw [← hq, heq]
        exact hempty
      · exact hasEmpty_eq_true.mpr ⟨q, hq, hemptyq⟩
    · simp only
      omega
    · simp only
      omega
    · simp only
      omega
  · have htomb := @countP_set _ IndexSlot.isTomb _ _ _ .tomb hslot
    have hnot : (IndexSlot.tomb : IndexSlot mode Addr).isTomb = true := rfl
    simp only [hnot, (Keeps.not_empty hkeeps).2.1, if_true, Bool.false_eq_true, if_false] at htomb
    refine ⟨h.write hlt rfl rfl (fun g hg => ?_) (fun e he => absurd he (by simp)) ?_ ?_ ?_, length_set, rfl⟩
    · obtain ⟨q, hq, hemptyq⟩ := hasEmpty_eq_true.mp hg
      rw [slotIs_set hlt rfl] at hemptyq
      split at hemptyq
      · simp [IndexSlot.isEmpty] at hemptyq
      · exact hasEmpty_eq_true.mpr ⟨q, hq, hemptyq⟩
    · simp only
      omega
    · simp only
      omega
    · simp only
      omega

end

theorem fresh_rep {k : Nat} (rebuilds : Nat) :
    (fresh (2 ^ k * GROUP) rebuilds : Index mode Addr).Rep (List.replicate (2 ^ k * GROUP) none) where
  groups := ⟨k, length_replicate⟩
  length := by rw [length_replicate, capacity, fresh, length_replicate]
  keeps pos slot entry hslot hentry := by
    rw [fresh, getElem?_replicate] at hslot
    rw [getElem?_replicate] at hentry
    split at hslot
    next hlt =>
      rw [if_pos hlt] at hentry
      rw [← some.inj hslot, ← some.inj hentry]
      rfl
    · simp at hslot
  chained pos e hentry := by
    rw [getElem?_replicate] at hentry
    split at hentry <;> simp at hentry
  live := by
    rw [countP_replicate]
    rfl
  tombstones := by
    rw [fresh, countP_replicate]
    rfl
  load := zero_le

theorem entries_fresh (n : Nat) : entries (List.replicate n none : Layout Addr) = 0 := by
  rw [entries, reduceOption_replicate_none]
  rfl

/-- Live entries placed one after the other. -/
theorem Rep.placeAll {hashOf : Addr → UInt64 → UInt64} {slots : List (IndexSlot mode Addr)} {rest : Layout Addr}
    {next : Index mode Addr}
    {layout : Layout Addr} (h : next.Rep layout) (hkeeps : List.Forall₂ Keeps slots rest)
    (hhash : ∀ e, some e ∈ rest → hashOf e.2 (mode.extHash (mode.extSet e.1)) = e.1)
    (hroom : (next.live + rest.countP Option.isSome) * 100 ≤ next.capacity * 85) (htombs : next.tombstones = 0) :
    ∃ next' layout', slots.foldlM (fun next slot =>
        match slot with
        | .live _ _ addr ext => next.insert (hashOf addr (mode.extHash ext)) addr
        | _ => some next) next = some next' ∧ next'.Rep layout' ∧ entries layout' = entries rest + entries layout ∧
      next'.capacity = next.capacity ∧ next'.rebuilds = next.rebuilds ∧ next'.tombstones = 0 := by
  induction hkeeps generalizing next layout with
  | nil => exact ⟨next, layout, rfl, h, by simp [entries], rfl, rfl, htombs⟩
  | @cons slot entry slots rest hkeep hrest ih =>
    have htail : ∀ e, some e ∈ rest → hashOf e.2 (mode.extHash (mode.extSet e.1)) = e.1 := fun e he =>
      hhash e (mem_cons_of_mem _ he)
    cases entry with
    | none =>
      rw [countP_cons_of_neg (by simp)] at hroom
      obtain ⟨next', layout', hfold, hrep⟩ := ih h htail hroom htombs
      refine ⟨next', layout', ?_, hrep⟩
      rw [foldlM_cons]
      cases slot with
      | empty | tomb => exact hfold
      | live _ _ _ _ => simp [Keeps, IndexSlot.special] at hkeep
    | some e =>
      rw [countP_cons_of_pos rfl] at hroom
      have hsame := hhash e mem_cons_self
      have hfits : (next.live + next.tombstones + 1) * 100 ≤ next.capacity * 85 := by
        rw [htombs, add_zero]
        exact (Nat.mul_le_mul_right 100 (Nat.add_le_add_left (Nat.le_add_left 1 _) _)).trans hroom
      obtain ⟨next₁, pos, hinsert, hpos, hrep₁, hcap₁, hrebuilds₁, hlive₁, htombs₁⟩ := h.insert_spec e.1 e.2 hfits
      have hroom₁ : (next₁.live + rest.countP Option.isSome) * 100 ≤ next₁.capacity * 85 := by
        rw [hlive₁, hcap₁, add_assoc, add_comm 1]
        exact hroom
      rw [htombs, Nat.le_zero] at htombs₁
      obtain ⟨next', layout', hfold, hrep', hentries, hcap', hrebuilds', htombs'⟩ := ih hrep₁ htail hroom₁ htombs₁
      refine ⟨next', layout', ?_, hrep', ?_, hcap'.trans hcap₁, hrebuilds'.trans hrebuilds₁, htombs'⟩
      · rw [foldlM_cons, hkeep, IndexSlot.of]
        simp only [hsame, hinsert]
        exact hfold
      · have hset := @entries_set _ _ _ _ (some e) hpos
        rw [toList_none, Multiset.coe_nil, zero_add] at hset
        rw [hentries, hset, entries, entries, entries, reduceOption_cons_of_some, ← Multiset.cons_coe, toList_some,
          Multiset.coe_singleton, add_left_comm, Multiset.singleton_add, ← Multiset.cons_add]

/-- A rebuild places every entry again and leaves room for the next insertion. -/
theorem Rep.grow_spec {hashOf : Addr → UInt64 → UInt64} (h : t.Rep layout)
    (hhash : ∀ e ∈ entries layout, hashOf e.2 (mode.extHash (mode.extSet e.1)) = e.1) :
    ∃ t' layout', t.grow hashOf = some t' ∧ t'.Rep layout' ∧ entries layout' = entries layout ∧ t'.needsGrow = false ∧
      t'.rebuilds = t.rebuilds + 1 ∧ (t'.capacity = t.capacity ∨ t'.capacity = t.capacity * 2) := by
  obtain ⟨k, hk⟩ := h.groups
  have hload := h.load
  have hlive := h.live
  have hgroup : 16 ≤ t.capacity := by
    rw [hk]
    exact Nat.le_mul_of_pos_left _ (by positivity)
  have hkeeps : List.Forall₂ Keeps t.slots layout := by
    rw [List.forall₂_iff_get]
    refine ⟨h.length.symm, fun i hi hj => ?_⟩
    exact h.keeps i _ _ (getElem?_eq_getElem hi) (getElem?_eq_getElem hj)
  have hsize : ∃ j, (if t.live ≤ t.tombstones then t.capacity else t.capacity * 2) = 2 ^ j * GROUP := by
    split
    · exact ⟨k, hk⟩
    · refine ⟨k + 1, ?_⟩
      rw [hk]
      ring
  have hcapacity : (if t.live ≤ t.tombstones then t.capacity else t.capacity * 2) = t.capacity ∨
      (if t.live ≤ t.tombstones then t.capacity else t.capacity * 2) = t.capacity * 2 := by
    split
    · exact .inl rfl
    · exact .inr rfl
  have hroom : (t.live + 1) * 100 ≤ (if t.live ≤ t.tombstones then t.capacity else t.capacity * 2) * 85 := by
    split <;> omega
  obtain ⟨j, hj⟩ := hsize
  rw [hj] at hroom hcapacity
  obtain ⟨t', layout', hfold, hrep, hentries, hcap, hrebuilds, htombs⟩ :=
    (@fresh_rep mode Addr j (t.rebuilds + 1)).placeAll hkeeps
      (fun e he => hhash e (mem_entries.mpr (mem_iff_getElem?.mp he)))
      (by rw [capacity, fresh, length_replicate]; simp only; omega) rfl
  have hcap' : t'.capacity = 2 ^ j * GROUP := by
    rw [hcap, capacity, fresh, length_replicate]
  rw [entries_fresh, add_zero] at hentries
  refine ⟨t', layout', ?_, hrep, hentries, ?_, hrebuilds, by rw [hcap']; exact hcapacity⟩
  · rw [grow, hj]
    exact hfold
  · have hsame : t'.live = t.live := by
      rw [hrep.live, hlive, ← card_entries, ← card_entries, hentries]
    rw [needsGrow, decide_eq_false_iff_not, hcap', htombs, hsame]
    omega

end Index

end InfinityDB
