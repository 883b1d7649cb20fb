import InfinityDB.Ordered.Tree

/-!
# Slots and what they stand for

An item is a slot together with the pair it encodes. `Holds` says that a heap stores the
suffixes of a list of items, each owner once; the custody operations and the node searches
are specified against it, so nothing above this module looks at heap bytes again.
-/

namespace InfinityDB

open Lib List

section Search
variable {α : Type}

private theorem takeWhile_length_skip (P : α → Bool) (l : List α) (n : Nat) (h : ∀ x ∈ l.take n, P x) :
    (l.takeWhile P).length = (l.take n).length + ((l.drop n).takeWhile P).length := by
  rw [← length_append, ← takeWhile_append_of_pos h, take_append_drop]

theorem takeWhile_split (P : α → Bool) (l : List α) (h : l.Pairwise fun x y => P y → P x) :
    ∃ a b, l = a ++ b ∧ (l.takeWhile P).length = a.length ∧ (∀ x ∈ a, P x = true) ∧ ∀ x ∈ b, ¬ P x = true := by
  refine ⟨l.takeWhile P, l.dropWhile P, takeWhile_append_dropWhile.symm, rfl, ?_, ?_⟩
  · intro x hx
    exact mem_takeWhile_imp hx
  · induction l with
    | nil => simp
    | cons x l ih =>
      obtain ⟨hx, hl⟩ := pairwise_cons.mp h
      by_cases hp : P x = true
      · simpa [hp] using ih hl
      · intro y hy
        rw [dropWhile_cons_of_neg hp] at hy
        rcases mem_cons.mp hy with rfl | hy
        · exact hp
        · exact fun hpy => hp (hx y hy hpy)

/-- Where the property is inherited by earlier elements, counting and scanning agree. -/
private theorem countP_eq_takeWhile (P : α → Bool) (l : List α)
    (h : l.Pairwise fun x y => P y → P x) : l.countP P = (l.takeWhile P).length := by
  obtain ⟨a, b, hl, hlen, ha, hb⟩ := takeWhile_split P l h
  rw [hlen, hl, countP_append, countP_eq_length.mpr ha, countP_eq_zero.mpr hb, add_zero]

end Search

variable {S : KeyScheme}

abbrev Item (S : KeyScheme) := Slot S × Pair

/-- The slot spells out the pair: prefix and length agree, the heap holds the suffix. -/
structure Slot.Encodes (heap : KeyHeap) (slot : Slot S) (p : Pair) : Prop where
  admits : S.Admits p.key
  pre : slot.pre = keyPrefix p.key
  entryRef : slot.entryRef = p.entryRef
  len : S.metaLen slot.side = p.key.length
  addr : p.key.length ≤ 8 → S.metaAddr slot.side = 0
  suffix : 8 < p.key.length →
    heap.get (S.metaAddr slot.side) (p.key.length - 8) = some (p.key.drop 8)

/-- Heap address and suffix length of a slot that owns heap bytes. -/
def Slot.owner (slot : Slot S) : Option (Nat × Nat) :=
  if 8 < S.metaLen slot.side then some (S.metaAddr slot.side, S.metaLen slot.side - 8) else none

def owners (items : List (Item S)) : List (Nat × Nat) := items.filterMap fun item => item.1.owner

/-- The heap stores exactly the suffixes of these items. -/
structure Holds (heap : KeyHeap) (items : List (Item S)) : Prop where
  custody : heap.Custody (owners items)
  encodes : ∀ item ∈ items, item.1.Encodes heap item.2

variable {heap : KeyHeap} {items : List (Item S)} {key : Bytes} {slot : Slot S}

theorem Holds.perm {items' : List (Item S)} (h : Holds heap items) (hp : items.Perm items') : Holds heap items' :=
  ⟨h.custody.perm (hp.filterMap _), fun item hi => h.encodes item (hp.mem_iff.mpr hi)⟩

theorem holds_of_bytes {heap' : KeyHeap} (h : ∀ item ∈ items, item.1.Encodes heap item.2)
    (hc : heap'.Custody (owners items)) (hb : heap'.bytes = heap.bytes) : Holds heap' items := by
  refine ⟨hc, fun item hi => ?_⟩
  have he := h item hi
  refine { he with suffix := fun hl => ?_ }
  rw [← he.suffix hl]
  simp only [KeyHeap.get, hb]

theorem holds_new (ceiling : UInt32) : Holds (S := S) (KeyHeap.new ceiling) [] :=
  ⟨KeyHeap.custody_new ceiling, by simp⟩

theorem admits_length (h : S.Admits key) : key.length ≤ orderedKeyMax := by
  cases S with
  | fixed8 =>
    have h8 : key.length = 8 := h
    simp [h8, orderedKeyMax]
  | varKey => exact h

theorem makeProbe_admits (h : S.Admits key) : makeProbe S key = some (.ofKey key) :=
  if_pos h

theorem metaLen_metaNew (addr : Nat) (h : S.Admits key) : S.metaLen (S.metaNew addr key.length) = key.length := by
  cases S with
  | fixed8 =>
    have h8 : key.length = 8 := h
    rw [h8]
    rfl
  | varKey => rfl

theorem Slot.Encodes.get {p : Pair} (he : slot.Encodes heap p) :
    heap.get (S.metaAddr slot.side) (p.key.length - 8) = some (p.key.drop 8) := by
  by_cases hl : 8 < p.key.length
  · exact he.suffix hl
  · have hle : p.key.length ≤ 8 := not_lt.mp hl
    rw [he.addr hle, Nat.sub_eq_zero_of_le hle, drop_of_length_le hle]
    simp [KeyHeap.get]

private theorem fixed_eq_true (h : S.fixed = true) : S = .fixed8 := by
  cases S with
  | fixed8 => rfl
  | varKey => simp [KeyScheme.fixed] at h

/-- `emit_key` writes the encoded key. -/
theorem slotKey_eq {p : Pair} (he : slot.Encodes heap p) : OrderedMap.slotKey heap slot = some p.key := by
  have hpre : slot.pre = paddedValue 8 p.key := he.pre
  have hbytes : (beBytes 8 (paddedValue 8 p.key)).length = 8 := rfl
  have hhead : (beBytes 8 (paddedValue 8 p.key)).take (min p.key.length 8) = p.key.take 8 := by
    rw [← beBytes_paddedValue 8 p.key]
    rcases Nat.le_total p.key.length 8 with hl | hl
    · rw [Nat.min_eq_left hl]
    · rw [Nat.min_eq_right hl, take_of_length_le hbytes.le, take_of_length_le (by omega)]
  unfold OrderedMap.slotKey
  simp only [hpre, he.len, hhead]
  cases hfix : S.fixed with
  | true =>
    cases fixed_eq_true hfix
    have h8 : p.key.length = 8 := he.admits
    have hall := hhead
    rw [h8, take_of_length_le h8.le, take_of_length_le (by simp [hbytes])] at hall
    simp [hall]
  | false =>
    by_cases hl : 8 < p.key.length
    · simp [hl, he.suffix hl]
    · simp [hl]
      omega

/-- `cmp_pair` is the order of the encoded pairs. -/
theorem cmpPair_eq {p : Pair} (he : slot.Encodes heap p) (hk : S.Admits key) (r : UInt64) :
    cmpPair heap slot (.ofKey key) r = some (ordCmp p ⟨key, r⟩) := by
  have hkey : cmpKey heap slot (.ofKey key) = some (ordCmp p.key key) := by
    rw [← paddedCmp_eq 8]
    unfold cmpKey paddedCmp
    have hpre : slot.pre = paddedValue 8 p.key := he.pre
    simp only [Probe.ofKey, keyPrefix, hpre, he.len]
    cases hfix : S.fixed with
    | true =>
      have hS : S = .fixed8 := by cases S with
        | fixed8 => rfl
        | varKey => simp [KeyScheme.fixed] at hfix
      subst hS
      have h8 : p.key.length = 8 := he.admits
      have h8' : key.length = 8 := hk
      have hd : p.key.drop 8 = key.drop 8 := by
        rw [drop_of_length_le h8.le, drop_of_length_le h8'.le]
      rw [ordCmp_of_eq hd, ordCmp_of_eq (h8.trans h8'.symm)]
      cases ordCmp (paddedValue 8 p.key) (paddedValue 8 key) <;> rfl
    | false =>
      cases hord : ordCmp (paddedValue 8 p.key) (paddedValue 8 key) with
      | lt | gt => rfl
      | eq =>
        simp [he.get]
  rw [cmpPair, hkey, ordCmp_pair, he.entryRef]
  rfl

/-- A key of at most eight bytes owns no heap bytes. -/
theorem Holds.short (h : Holds heap items) (hk : S.Admits key) (hl : key.length ≤ 8) (r : UInt64) :
    Holds heap ((⟨keyPrefix key, S.metaNew 0 key.length, r⟩, ⟨key, r⟩) :: items) := by
  have howner : (Slot.owner ⟨keyPrefix key, S.metaNew 0 key.length, r⟩ : Option (Nat × Nat)) = none := by
    simp [Slot.owner, metaLen_metaNew 0 hk, hl]
  refine ⟨by simpa [owners, filterMap_cons, howner] using h.custody, ?_⟩
  intro item hi
  rcases mem_cons.mp hi with rfl | hi
  · refine ⟨hk, rfl, rfl, metaLen_metaNew 0 hk, fun _ => ?_, fun hlong => absurd hlong (not_lt.mpr hl)⟩
    cases S <;> rfl
  · exact h.encodes item hi

/-- Storing a long key's suffix: the new item joins those held, or the heap refuses. -/
theorem Holds.adopt (h : Holds heap items)
    (hk : S.Admits key) (hS : S.fixed = false) (hl : 8 < key.length) (r : UInt64) :
    (∃ addr heap', heap.alloc (key.drop 8) = some (.ok addr, heap') ∧
      Holds heap' ((⟨keyPrefix key, S.metaNew addr key.length, r⟩, ⟨key, r⟩) :: items)) ∨
    ∃ heap', heap.alloc (key.drop 8) = some (.error .heapFull, heap') ∧ Holds heap' items := by
  have hmax := admits_length hk
  have hdrop : (key.drop 8).length = key.length - 8 := length_drop
  have haddr (addr : Nat) : S.metaAddr (S.metaNew addr key.length) = addr := by
    cases S with
    | fixed8 => simp [KeyScheme.fixed] at hS
    | varKey => rfl
  rcases h.custody.alloc (key.drop 8) (by omega) (by omega) with
    ⟨addr, heap', halloc, hc, hget, hsame⟩ | ⟨heap', halloc, hc, hbytes⟩
  · refine .inl ⟨addr, heap', halloc, ?_, ?_⟩
    · have howner : Slot.owner (S := S) ⟨keyPrefix key, S.metaNew addr key.length, r⟩ =
          some (addr, key.length - 8) := by
        simp [Slot.owner, metaLen_metaNew addr hk, haddr, hl]
      simpa [owners, filterMap_cons, howner, hdrop] using hc
    · intro item hi
      rcases mem_cons.mp hi with rfl | hi
      · refine ⟨hk, rfl, rfl, metaLen_metaNew addr hk, fun hs => absurd hs (by simpa using hl), fun _ => ?_⟩
        simpa [haddr, hdrop] using hget
      · have he := h.encodes item hi
        refine { he with suffix := fun hlong => ?_ }
        have hmem : (S.metaAddr item.1.side, item.2.key.length - 8) ∈ owners items :=
          mem_filterMap.mpr ⟨item, hi, by simp [Slot.owner, he.len, hlong]⟩
        rw [hsame _ hmem]
        exact he.suffix hlong
  · exact .inr ⟨heap', halloc, holds_of_bytes h.encodes hc hbytes⟩

theorem fixed_of_long (hk : S.Admits key) (hlong : 8 < key.length) : S.fixed = false := by
  cases S with
  | fixed8 => exact absurd (show key.length = 8 from hk) (by omega)
  | varKey => rfl

theorem storeMeta_spec (h : Holds heap items) (hk : S.Admits key) (r : UInt64) :
    (∃ side heap', storeMeta S heap (.ofKey key) = some (.ok side, heap') ∧
      Holds heap' ((⟨keyPrefix key, side, r⟩, ⟨key, r⟩) :: items)) ∨
    ∃ heap', storeMeta S heap (.ofKey key) = some (.error .heapFull, heap') ∧ Holds heap' items ∧ S.fixed = false := by
  by_cases hl : key.length ≤ 8
  · refine .inl ⟨_, heap, ?_, h.short hk hl r⟩
    simp [storeMeta, Probe.ofKey, drop_of_length_le hl]
  have hlong : 8 < key.length := not_le.mp hl
  have hS := fixed_of_long hk hlong
  have hne : (key.drop 8).isEmpty = false := by
    simp [isEmpty_eq_false_iff, hlong]
  rcases h.adopt hk hS hlong r with ⟨addr, heap', halloc, hh⟩ | ⟨heap', halloc, hh⟩
  · exact .inl ⟨_, heap', by simp [storeMeta, Probe.ofKey, hS, hne, halloc], hh⟩
  · exact .inr ⟨heap', by simp [storeMeta, Probe.ofKey, hS, hne, halloc], hh, hS⟩

theorem freeMeta_spec {item : Item S} (h : Holds heap (item :: items)) :
    ∃ heap', freeMeta heap item.1.side = some heap' ∧ Holds heap' items := by
  have hrest := (forall_mem_cons.mp h.encodes).2
  cases howner : item.1.owner with
  | none =>
    have hshort : S.metaLen item.1.side - 8 = 0 := by
      by_contra hne
      simp [Slot.owner, show 8 < S.metaLen item.1.side by omega] at howner
    refine ⟨heap, by simp [freeMeta, hshort], holds_of_bytes hrest ?_ rfl⟩
    simpa [owners, filterMap_cons, howner] using h.custody
  | some o =>
    have hlong : 8 < S.metaLen item.1.side := by
      by_contra hne
      simp [Slot.owner, hne] at howner
    have ho : o = (S.metaAddr item.1.side, S.metaLen item.1.side - 8) := by
      simpa [Slot.owner, hlong] using howner.symm
    have hS : S.fixed = false := by
      cases S with
      | fixed8 => simp [KeyScheme.metaLen] at hlong
      | varKey => rfl
    subst ho
    have hc : heap.Custody ((S.metaAddr item.1.side, S.metaLen item.1.side - 8) :: owners items) := by
      simpa [owners, filterMap_cons, howner] using h.custody
    obtain ⟨heap', hrel, hc', hb⟩ := hc.release
    exact ⟨heap', by simp [freeMeta, hS, hlong, hrel], holds_of_bytes hrest hc' hb⟩

theorem copySlot_spec (h : Holds heap items) (item : Item S) (hi : item ∈ items) :
    (∃ slot heap', copySlot heap item.1 = some (.ok slot, heap') ∧ Holds heap' ((slot, item.2) :: items)) ∨
    ∃ heap', copySlot heap item.1 = some (.error .heapFull, heap') ∧ Holds heap' items ∧ S.fixed = false := by
  obtain ⟨⟨pre, side, ref⟩, ⟨key, r⟩⟩ := item
  have he := h.encodes _ hi
  obtain ⟨rfl, rfl⟩ : pre = keyPrefix key ∧ ref = r := ⟨he.pre, he.entryRef⟩
  have hlen : S.metaLen side = key.length := he.len
  by_cases hl : key.length ≤ 8
  · refine .inl ⟨_, heap, ?_, h.short he.admits hl ref⟩
    cases S with
    | fixed8 => rfl
    | varKey => simp [copySlot, KeyScheme.fixed, hlen, Nat.sub_eq_zero_of_le hl]
  · have hlong : 8 < key.length := not_le.mp hl
    have hS := fixed_of_long he.admits hlong
    have hget : heap.get (S.metaAddr side) (key.length - 8) = some (key.drop 8) := he.suffix hlong
    have hne : key.length - 8 ≠ 0 := by omega
    rcases h.adopt he.admits hS hlong ref with ⟨addr, heap', halloc, hh⟩ | ⟨heap', halloc, hh⟩
    · exact .inl ⟨_, heap', by simp [copySlot, hS, hlen, hne, hget, halloc], hh⟩
    · exact .inr ⟨heap', by simp [copySlot, hS, hlen, hne, hget, halloc], hh, hS⟩

section NodeSearch
variable {heap : KeyHeap} {items : List (Item S)} {key : Bytes}

theorem scalarWalk_eq (he : ∀ item ∈ items, item.1.Encodes heap item.2) (hk : S.Admits key)
    (r : UInt64) (advance : Ordering → Bool) : scalarWalk heap (.ofKey key) r advance (items.map Prod.fst) =
      some (items.takeWhile fun item => advance (ordCmp item.2 ⟨key, r⟩)).length := by
  induction items with
  | nil => rfl
  | cons item items ih =>
    have htail := ih (forall_mem_cons.mp he).2
    rw [map_cons, scalarWalk, cmpPair_eq (he item (by simp)) hk r]
    by_cases hadv : advance (ordCmp item.2 ⟨key, r⟩) = true
    · simp [hadv, htail]
    · simp [hadv]

private theorem mem_jump {P : Nat → Bool} {item : Item S}
    (h : item ∈ items.take (((items.map Prod.fst).map (·.pre)).takeWhile P).length) :
    item ∈ items ∧ P item.1.pre = true := by
  refine ⟨mem_of_mem_take h, ?_⟩
  rw [map_map, takeWhile_map, length_map, ← prefix_iff_eq_take.mp ( takeWhile_prefix _)] at h
  exact (mem_takeWhile_imp h :)

/-- Skipping the slots whose prefix is smaller, then walking, splits the node where the walk's property ends. -/
private theorem skip_walk (he : ∀ item ∈ items, item.1.Encodes heap item.2) (hk : S.Admits key)
    {r : UInt64} {advance : Ordering → Bool} {P : Pair → Prop} (hadv : ∀ p, advance (ordCmp p ⟨key, r⟩) = true ↔ P p) {n : Nat}
    (hn : n = (((items.map Prod.fst).map (·.pre)).takeWhile (· < keyPrefix key)).length) (hlt : ∀ p, p < ⟨key, r⟩ → P p)
    (hmono : items.Pairwise fun x y => P y.2 → P x.2) : ∃ a b, items = a ++ b ∧
      (do let k ← scalarWalk heap (.ofKey key) r advance ((items.map Prod.fst).drop n); some (n + k)) = some a.length ∧
      (∀ x ∈ a, P x.2) ∧ ∀ x ∈ b, ¬ P x.2 := by
  have hskip : ∀ item ∈ items.take n, advance (ordCmp item.2 ⟨key, r⟩) := by
    intro item hi
    rw [hn] at hi
    obtain ⟨hmem, hpre⟩ := mem_jump hi
    refine (hadv item.2).mpr (hlt _ ?_)
    rw [decide_eq_true_eq, (he item hmem).pre] at hpre
    by_contra hge
    exact absurd (keyPrefix_mono (Pair.key_le_of_le (not_lt.mp hge))) (not_le.mpr hpre)
  simp only [← hadv] at hmono ⊢
  obtain ⟨a, b, hab, hlen, ha, hb⟩ := takeWhile_split _ items hmono
  refine ⟨a, b, hab, ?_, ha, hb⟩
  have hle : n ≤ items.length := hn.trans_le ((takeWhile_sublist _).length_le.trans (by simp))
  rw [← map_drop, scalarWalk_eq (fun item hi => he item (mem_of_mem_drop hi)) hk, ← hlen,
    takeWhile_length_skip _ items n hskip, length_take, Nat.min_eq_left hle]
  rfl

/-- The order of a leaf search: strictly below the probe, or not past it. -/
def Below (allowEqual : Bool) (p q : Pair) : Prop := if allowEqual then p < q else p ≤ q

private theorem below_of_lt {allowEqual : Bool} {p q : Pair} (h : p < q) : Below allowEqual p q := by
  cases allowEqual
  · exact h.le
  · exact h

theorem Below.of_lt_left {allowEqual : Bool} {p q x : Pair} (h : Below allowEqual p q) (hx : x < p) :
    Below allowEqual x q := by
  cases allowEqual
  · exact hx.le.trans h
  · exact lt_trans hx h

theorem leafLowerBound_spec (he : ∀ item ∈ items, item.1.Encodes heap item.2) (hk : S.Admits key)
    (r : UInt64) (allowEqual : Bool) (next : Option Nat) (hs : items.Pairwise fun x y => x.2 < y.2) :
    ∃ a b, items = a ++ b ∧ leafLowerBound heap ⟨next, items.map Prod.fst⟩ (.ofKey key) r allowEqual = some a.length ∧
      (∀ x ∈ a, Below allowEqual x.2 ⟨key, r⟩) ∧ ∀ x ∈ b, ¬ Below allowEqual x.2 ⟨key, r⟩ := by
  have hadv (x : Pair) : (fun o => o == .lt || (!allowEqual && o == .eq)) (ordCmp x ⟨key, r⟩) = true ↔
      Below allowEqual x ⟨key, r⟩ := by
    cases allowEqual <;> simp [Below, le_iff_lt_or_eq]
  exact skip_walk he hk hadv rfl (fun _ => below_of_lt) (hs.imp fun hxy hy => hy.of_lt_left hxy)

theorem routeChild_spec (he : ∀ item ∈ items, item.1.Encodes heap item.2) (hk : S.Admits key)
    (r : UInt64) (children : List Nat) (hs : items.Pairwise fun x y => x.2 ≤ y.2) : ∃ a b, items = a ++ b ∧
      routeChild heap ⟨items.map Prod.fst, children⟩ (.ofKey key) r = some a.length ∧
      (∀ x ∈ a, x.2 ≤ ⟨key, r⟩) ∧ ∀ x ∈ b, ⟨key, r⟩ < x.2 := by
  have hadv (x : Pair) : (fun o : Ordering => o != .gt) (ordCmp x ⟨key, r⟩) = true ↔ x ≤ ⟨key, r⟩ := by
    simp [bne_iff_ne]
  have hpres : ((items.map Prod.fst).map (·.pre)).Pairwise fun x y =>
      decide (y < keyPrefix key) → decide (x < keyPrefix key) := by
    rw [map_map, pairwise_map]
    refine hs.imp_of_mem fun {x y} hx hy hxy hlt => ?_
    have hle : x.1.pre ≤ y.1.pre := by
      rw [(he x hx).pre, (he y hy).pre]
      exact keyPrefix_mono (Pair.key_le_of_le hxy)
    simp only [Function.comp_apply, decide_eq_true_eq] at hlt ⊢
    exact lt_of_le_of_lt hle hlt
  have hcount : lowerBoundU64 ((items.map Prod.fst).map (·.pre)) (keyPrefix key) =
      (((items.map Prod.fst).map (·.pre)).takeWhile (· < keyPrefix key)).length :=
    countP_eq_takeWhile _ _ hpres
  simp only [← not_le]
  exact skip_walk he hk hadv hcount (fun _ => le_of_lt) (hs.imp fun hxy hy => hxy.trans hy)

end NodeSearch

end InfinityDB
