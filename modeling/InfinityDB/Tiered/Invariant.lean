import InfinityDB.Tiered.Table

/-!
# What every table keeps

Addresses are handed out once: a step never slots an address below the old tail again, never changes
the key of the record there, and never touches bytes below the head. Where writes act on right answers
(`trusted`), two slots of one key are a cold twin and the winner of its ticket, so a key has one current
record.
-/

namespace InfinityDB.Tiered

open Lib List Option

namespace TieredTable

variable {hashOf : Bytes → UInt64} {trusted : Prop} {s s' : TieredTable} {m : Multiset (UInt64 × Nat)}

variable {addr old : Nat} {bytes : Bytes} {hash : UInt64}

private theorem resolve_eq_cold (h : s.head ≤ s.roBoundary) : s.resolve addr = .cold ↔ addr < s.head := by
  rw [resolve]
  split
  next hle => exact ⟨fun hcold => absurd hcold (by simp), fun hlt => by omega⟩
  · split
    next hle => exact ⟨fun hcold => absurd hcold (by simp), fun hlt => by omega⟩
    next hlt => exact ⟨fun _ => Nat.lt_of_not_le hlt, fun _ => rfl⟩

/-- The entries `m` of the index, the records they lead to and the tickets for twins. -/
structure Inv (hashOf : Bytes → UInt64) (trusted : Prop) (s : TieredTable) (m : Multiset (UInt64 × Nat)) : Prop where
  index : ∃ atLeast, Index.Reaches atLeast s.index m
  nodup : m.Nodup
  isRecord : ∀ e ∈ m, IsRecord (s.image e.2)
  hashed : ∀ e ∈ m, ∀ key, keyOf (s.image e.2) = some key → e.1 = hashOf key
  below : ∀ e ∈ m, e.2 < s.tail
  head_le : s.head ≤ s.flushed
  flushed_le : s.flushed ≤ s.roBoundary
  ro_le : s.roBoundary ≤ s.tail
  twins : trusted → ∀ e ∈ m, ∀ e' ∈ m, e.2 < e'.2 → keyOf (s.image e.2) = keyOf (s.image e'.2) →
    ∃ t ∈ s.tickets, t.cold = e.2 ∧ t.winner = e'.2
  tickets : ∀ t ∈ s.tickets, t.cold < s.head ∧ s.head ≤ t.winner
  oneTicket : ∀ t ∈ s.tickets, ∀ t' ∈ s.tickets, t.cold = t'.cold → t = t'

/-- What a step leaves of the addresses that were handed out before it. -/
structure Evolves (s s' : TieredTable) : Prop where
  head_le : s.head ≤ s'.head
  tail_le : s.tail ≤ s'.tail
  slotted : ∀ addr < s.tail, addr ∈ s'.addrs → addr ∈ s.addrs
  keys : ∀ addr < s.tail, keyOf (s'.image addr) = keyOf (s.image addr)
  frozen : ∀ addr < s.head, s'.image addr = s.image addr

theorem Evolves.trans {s'' : TieredTable} (h : Evolves s s') (h' : Evolves s' s'') : Evolves s s'' where
  head_le := h.head_le.trans h'.head_le
  tail_le := h.tail_le.trans h'.tail_le
  slotted addr haddr hslot := h.slotted addr haddr (h'.slotted addr (Nat.lt_of_lt_of_le haddr h.tail_le) hslot)
  keys addr haddr := (h'.keys addr (Nat.lt_of_lt_of_le haddr h.tail_le)).trans (h.keys addr haddr)
  frozen addr haddr := (h'.frozen addr (Nat.lt_of_lt_of_le haddr h.head_le)).trans (h.frozen addr haddr)

private theorem mem_addrs_of_rep {layout : Layout Nat} (h : s.index.Rep layout) :
    addr ∈ s.addrs ↔ ∃ hash, (hash, addr) ∈ entries layout := by
  rw [addrs, mem_filterMap]
  constructor
  · rintro ⟨slot, hslot, haddr⟩
    obtain ⟨pos, hpos⟩ := mem_iff_getElem?.mp hslot
    obtain ⟨entry, hentry, hkeeps⟩ := h.entry hpos
    cases entry with
    | none =>
      cases slot with
      | live _ _ _ _ => simp [Keeps, IndexSlot.special] at hkeeps
      | empty | tomb => simp [slotAddr] at haddr
    | some e =>
      rw [hkeeps] at haddr
      have haddr : e.2 = addr := some.inj haddr
      refine ⟨e.1, mem_entries.mpr ⟨pos, ?_⟩⟩
      rw [← haddr]
      exact hentry
  · rintro ⟨hash, hmem⟩
    obtain ⟨pos, hpos⟩ := mem_entries.mp hmem
    obtain ⟨slot, hslot, hkeeps⟩ := h.slot hpos
    exact ⟨slot, mem_iff_getElem?.mpr ⟨pos, hslot⟩, by rw [hkeeps]; rfl⟩

namespace Inv

section
variable (h : Inv hashOf trusted s m)
include h

variable {addr : Nat}

theorem mem_addrs : addr ∈ s.addrs ↔ ∃ hash, (hash, addr) ∈ m := by
  obtain ⟨atLeast, hreach⟩ := h.index
  obtain ⟨layout, hrep, rfl⟩ := hreach.rep
  exact mem_addrs_of_rep hrep

theorem cold_iff : s.resolve addr = .cold ↔ addr < s.head :=
  resolve_eq_cold (h.head_le.trans h.flushed_le)

/-- An address is in the index under one hash only. -/
theorem hash_eq {hash hash' : UInt64} (hmem : (hash, addr) ∈ m) (hmem' : (hash', addr) ∈ m) : hash = hash' := by
  obtain ⟨parts, hparts, -⟩ := h.isRecord _ hmem
  have hkey : keyOf (s.image addr) = some parts.key := by
    rw [keyOf]
    exact congrArg (Option.map RecordParts.key) hparts
  exact (h.hashed _ hmem _ hkey).trans (h.hashed _ hmem' _ hkey).symm

theorem mem_of_addrs {key : Bytes} (haddr : addr ∈ s.addrs)
    (hkey : keyOf (s.image addr) = some key) : (hashOf key, addr) ∈ m := by
  obtain ⟨hash, hmem⟩ := h.mem_addrs.mp haddr
  rw [← h.hashed _ hmem _ hkey]
  exact hmem

theorem lt_tail (haddr : addr ∈ s.addrs) : addr < s.tail := by
  obtain ⟨hash, hmem⟩ := h.mem_addrs.mp haddr
  exact h.below _ hmem

theorem mem_of_positionOf {hash : UInt64} {pos : Nat} (hpos : s.index.positionOf hash addr = some pos) : (hash, addr) ∈ m := by
  obtain ⟨atLeast, hreach⟩ := h.index
  obtain ⟨layout, hrep, rfl⟩ := hreach.rep
  exact mem_entries.mpr ⟨pos, (hrep.positionOf_spec (exact_tieredMode _ _ _)).1 pos hpos⟩

theorem mem_of_replace {hash : UInt64} {old new : Nat} {index : Index tieredMode Nat}
    (hreplace : s.index.replace hash old new = some index) : (hash, old) ∈ m := by
  obtain ⟨pos, hpos, -⟩ := bind_eq_some_iff.mp hreplace
  exact h.mem_of_positionOf hpos

theorem mem_of_remove {hash : UInt64} {index : Index tieredMode Nat}
    (hremove : s.index.remove hash addr = some index) : (hash, addr) ∈ m := by
  obtain ⟨pos, hpos, -⟩ := map_eq_some_iff.mp hremove
  exact h.mem_of_positionOf hpos

/-- Of two slots with one key the lower is cold and the other in memory. -/
theorem twin_classes (ht : trusted) {e e' : UInt64 × Nat} (he : e ∈ m) (he' : e' ∈ m) (hlt : e.2 < e'.2)
    (hkeys : keyOf (s.image e.2) = keyOf (s.image e'.2)) : e.2 < s.head ∧ s.head ≤ e'.2 := by
  obtain ⟨t, hmem, hcold, hwinner⟩ := h.twins ht e he e' he' hlt hkeys
  rw [← hcold, ← hwinner]
  exact h.tickets t hmem

/-- A key has one current record. -/
theorem current_unique (ht : trusted) {key : Bytes} {addr' : Nat} (hcur : s.Current key addr) (hcur' : s.Current key addr') :
    addr = addr' := by
  obtain ⟨hmem, hkey, hclass⟩ := hcur
  obtain ⟨hmem', hkey', hclass'⟩ := hcur'
  have hent := h.mem_of_addrs hmem hkey
  have hent' := h.mem_of_addrs hmem' hkey'
  rw [ne_eq, h.cold_iff] at hclass hclass'
  by_contra hne
  rcases Nat.lt_or_gt_of_ne hne with hlt | hlt
  · obtain ⟨hcold, hram⟩ := h.twin_classes ht hent hent' hlt (hkey.trans hkey'.symm)
    have hall := hclass.resolve_left (by omega) addr' hmem' hkey'
    rw [h.cold_iff] at hall
    omega
  · obtain ⟨hcold, hram⟩ := h.twin_classes ht hent' hent hlt (hkey'.trans hkey.symm)
    have hall := hclass'.resolve_left (by omega) addr hmem hkey
    rw [h.cold_iff] at hall
    omega

end

end Inv

private theorem image_place_self : (s.place addr bytes).image addr = bytes := Function.update_self _ _ _

theorem image_place_of_lt {a : Nat} (h : a < addr) : (s.place addr bytes).image a = s.image a :=
  Function.update_of_ne (Nat.ne_of_lt h) _ _

/-- A record placed at a fresh address, with the entries `kept` of the others and tickets for its twins. -/
theorem Inv.placed (h : Inv hashOf trusted s m) {kept : Multiset (UInt64 × Nat)} {index : Index tieredMode Nat}
    {tickets : List ShadowTicket}
    {key bytes : Bytes} {addr : Nat} (hkept : kept ≤ m) (hfree : s.tail ≤ addr) (hrecord : IsRecord bytes)
    (hkey : keyOf bytes = some key) (hindex : ∃ atLeast, Index.Reaches atLeast index ((hashOf key, addr) ::ₘ kept))
    (htwin : trusted → ∀ e ∈ kept, keyOf (s.image e.2) = some key → ∃ t ∈ tickets, t.cold = e.2 ∧ t.winner = addr)
    (htwins : trusted → ∀ e ∈ kept, ∀ e' ∈ kept, e.2 < e'.2 → keyOf (s.image e.2) = keyOf (s.image e'.2) →
      ∃ t ∈ tickets, t.cold = e.2 ∧ t.winner = e'.2) (htickets : ∀ t ∈ tickets, t.cold < s.head ∧ s.head ≤ t.winner)
    (hone : ∀ t ∈ tickets, ∀ t' ∈ tickets, t.cold = t'.cold → t = t') :
    Inv hashOf trusted { s.place addr bytes with index, tickets } ((hashOf key, addr) ::ₘ kept) := by
  have hmem (e : UInt64 × Nat) (he : e ∈ kept) : e ∈ m := Multiset.mem_of_le hkept he
  have hlt (e : UInt64 × Nat) (he : e ∈ kept) : e.2 < addr := Nat.lt_of_lt_of_le (h.below e (hmem e he)) hfree
  have himage (e : UInt64 × Nat) (he : e ∈ kept) : (s.place addr bytes).image e.2 = s.image e.2 := image_place_of_lt (hlt e he)
  constructor
  case index => exact hindex
  case nodup =>
    rw [Multiset.nodup_cons]
    exact ⟨fun he => Nat.lt_irrefl _ (hlt _ he), Multiset.nodup_of_le hkept h.nodup⟩
  case isRecord =>
    intro e he
    change IsRecord ((s.place addr bytes).image e.2)
    rcases Multiset.mem_cons.mp he with rfl | he
    · rw [image_place_self]
      exact hrecord
    · rw [himage e he]
      exact h.isRecord e (hmem e he)
  case hashed =>
    intro e he key'
    change keyOf ((s.place addr bytes).image e.2) = some key' → e.1 = hashOf key'
    rcases Multiset.mem_cons.mp he with rfl | he
    · rw [image_place_self, hkey, some.injEq]
      exact fun heq => congrArg hashOf heq
    · rw [himage e he]
      exact h.hashed e (hmem e he) key'
  case below =>
    intro e he
    change e.2 < addr + bytes.length
    have hpos := hrecord.length.2
    rw [headerLen] at hpos
    rcases Multiset.mem_cons.mp he with rfl | he
    · change addr < addr + bytes.length
      omega
    · exact Nat.lt_of_lt_of_le (hlt e he) (Nat.le_add_right _ _)
  case head_le => exact h.head_le
  case flushed_le => exact h.flushed_le
  case ro_le =>
    have := h.ro_le
    change s.roBoundary ≤ addr + bytes.length
    omega
  case twins =>
    intro ht e he e' he' hlt'
    change keyOf ((s.place addr bytes).image e.2) = keyOf ((s.place addr bytes).image e'.2) → _
    rcases Multiset.mem_cons.mp he' with rfl | he'
    · rcases Multiset.mem_cons.mp he with rfl | he
      · exact absurd hlt' (Nat.lt_irrefl _)
      · rw [image_place_self, himage e he, hkey]
        exact htwin ht e he
    · rcases Multiset.mem_cons.mp he with rfl | he
      · exact absurd hlt' (Nat.lt_asymm (hlt e' he'))
      · rw [himage e he, himage e' he']
        exact htwins ht e he e' he' hlt'
  case tickets => exact htickets
  case oneTicket => exact hone

/-- With one hash for an address, no other entry has the address of an erased one. -/
theorem Inv.addr_ne_of_mem_erase (h : Inv hashOf trusted s m) {e e' : UInt64 × Nat} (he : e ∈ m)
    (he' : e' ∈ m.erase e) : e'.2 ≠ e.2 := by
  intro heq
  have hhash : e'.1 = e.1 := h.hash_eq (Multiset.mem_of_mem_erase he') (by rw [heq]; exact he)
  rw [Prod.ext hhash heq] at he'
  exact Multiset.Nodup.notMem_erase h.nodup he'

/-- An entry dropped, with the tickets of the others. -/
theorem Inv.dropped (h : Inv hashOf trusted s m) {e : UInt64 × Nat} {index : Index tieredMode Nat} {tickets : List ShadowTicket}
    (hindex : ∃ atLeast, Index.Reaches atLeast index (m.erase e)) (hsub : ∀ t ∈ tickets, t ∈ s.tickets)
    (hkeep : ∀ t ∈ s.tickets, t.cold ≠ e.2 → t.winner ≠ e.2 → t ∈ tickets) (he : e ∈ m) :
    Inv hashOf trusted { s with index, tickets } (m.erase e) := by
  have hmem (e' : UInt64 × Nat) (he' : e' ∈ m.erase e) : e' ∈ m := Multiset.mem_of_mem_erase he'
  have hother (e' : UInt64 × Nat) (he' : e' ∈ m.erase e) : e'.2 ≠ e.2 := h.addr_ne_of_mem_erase he he'
  constructor
  case index => exact hindex
  case nodup => exact h.nodup.erase e
  case isRecord => exact fun e' he' => h.isRecord e' (hmem e' he')
  case hashed => exact fun e' he' => h.hashed e' (hmem e' he')
  case below => exact fun e' he' => h.below e' (hmem e' he')
  case head_le => exact h.head_le
  case flushed_le => exact h.flushed_le
  case ro_le => exact h.ro_le
  case twins =>
    intro htrusted e₁ he₁ e₂ he₂ hlt hkeys
    obtain ⟨t, ht, hcold, hwinner⟩ := h.twins htrusted e₁ (hmem e₁ he₁) e₂ (hmem e₂ he₂) hlt hkeys
    refine ⟨t, hkeep t ht ?_ ?_, hcold, hwinner⟩
    · rw [hcold]
      exact hother e₁ he₁
    · rw [hwinner]
      exact hother e₂ he₂
  case tickets => exact fun t ht => h.tickets t (hsub t ht)
  case oneTicket => exact fun t ht t' ht' => h.oneTicket t (hsub t ht) t' (hsub t' ht')

theorem roomy_spec {atLeast : Nat} {t t' : Index tieredMode Nat} (h : Index.Reaches atLeast t m) (hroomy : roomy t = some t') :
    Index.Reaches atLeast t' m ∧ t'.needsGrow = false := by
  rw [roomy] at hroomy
  split at hroomy
  · obtain ⟨layout, hrep, hm⟩ := h.rep
    obtain ⟨t₁, -, hgrow, -, -, hroom, -⟩ := @Index.Rep.grow_spec _ _ _ _ (fun _ ext => ext) hrep fun _ _ => rfl
    have heq : t₁ = t' := some.inj (hgrow.symm.trans hroomy)
    rw [← heq]
    exact ⟨h.grow _ (fun _ _ => rfl) hgrow, hroom⟩
  next hroom =>
    rw [← some.inj hroomy]
    exact ⟨h, Bool.eq_false_iff.mpr hroom⟩

/-- What an insertion leaves. -/
theorem insert_eq {spec : RecordSpec} (hinsert : s.insert spec hash addr = some s') :
    ∃ bytes index₁ index₂, spec.write = some bytes ∧ roomy s.index = some index₁ ∧ index₁.insert hash addr = some index₂ ∧
      s' = { s.place addr bytes with index := index₂ } := by
  obtain ⟨bytes, hwrite, hinsert⟩ := bind_eq_some_iff.mp hinsert
  obtain ⟨index₁, hroomy, hinsert⟩ := bind_eq_some_iff.mp hinsert
  obtain ⟨index₂, hslot, hinsert⟩ := bind_eq_some_iff.mp hinsert
  exact ⟨bytes, index₁, index₂, hwrite, hroomy, hslot, (some.inj hinsert).symm⟩

theorem overwrite_eq {spec : RecordSpec} (h : s.overwrite spec hash old addr = some s') :
    ∃ bytes index, spec.write = some bytes ∧ s.index.replace hash old addr = some index ∧
      s' = { s.place addr bytes with index, tickets := s.shadowNoteMoved old addr } := by
  obtain ⟨bytes, hwrite, h⟩ := bind_eq_some_iff.mp h
  obtain ⟨index, hreplace, h⟩ := bind_eq_some_iff.mp h
  exact ⟨bytes, index, hwrite, hreplace, (some.inj h).symm⟩

theorem specOf_key (key : Bytes) (version : Nat) (payload : Payload) : (specOf key version payload).key = key := by
  cases payload <;> rfl

/-- A table with the entries of `s` but for some, and one at a fresh address, evolves from `s`. -/
theorem Inv.evolves_placed (h : Inv hashOf trusted s m) {kept : Multiset (UInt64 × Nat)}
    {index : Index tieredMode Nat} {tickets : List ShadowTicket}
    (hkept : kept ≤ m) (hfree : s.tail ≤ addr)
    (h' : Inv hashOf trusted { s.place addr bytes with index, tickets } ((hash, addr) ::ₘ kept)) :
    Evolves s { s.place addr bytes with index, tickets } := by
  constructor
  case head_le => exact Nat.le_refl _
  case tail_le =>
    change s.tail ≤ addr + bytes.length
    omega
  case slotted =>
    intro a ha hslot
    obtain ⟨hash', hmem⟩ := h'.mem_addrs.mp hslot
    rcases Multiset.mem_cons.mp hmem with heq | hmem
    · have : a = addr := congrArg Prod.snd heq
      omega
    · exact h.mem_addrs.mpr ⟨hash', Multiset.mem_of_le hkept hmem⟩
  case keys => exact fun a ha => congrArg keyOf (image_place_of_lt (Nat.lt_of_lt_of_le ha hfree))
  case frozen =>
    intro a ha
    have := h.head_le
    have := h.flushed_le
    have := h.ro_le
    exact image_place_of_lt (by omega)

theorem Inv.evolves_dropped (h : Inv hashOf trusted s m) {e : UInt64 × Nat} {index : Index tieredMode Nat} {tickets : List ShadowTicket}
    (h' : Inv hashOf trusted { s with index, tickets } (m.erase e)) : Evolves s { s with index, tickets } := by
  constructor
  case head_le => exact Nat.le_refl _
  case tail_le => exact Nat.le_refl _
  case slotted =>
    intro a ha hslot
    obtain ⟨hash', hmem⟩ := h'.mem_addrs.mp hslot
    exact h.mem_addrs.mpr ⟨hash', Multiset.mem_of_mem_erase hmem⟩
  case keys => exact fun _ _ => rfl
  case frozen => exact fun _ _ => rfl

theorem Inv.insert (h : Inv hashOf trusted s m) {key : Bytes} {payload : Payload} {version addr : Nat} (habsent : trusted → s.Absent key)
    (hfree : s.tail ≤ addr) (hinsert : s.insert (specOf key version payload) (hashOf key) addr = some s') :
    ∃ m', Inv hashOf trusted s' m' ∧ Evolves s s' := by
  obtain ⟨bytes, index₁, index₂, hwrite, hroomy, hslot, rfl⟩ := insert_eq hinsert
  obtain ⟨atLeast, hreach⟩ := h.index
  obtain ⟨hreach₁, hroom⟩ := roomy_spec hreach hroomy
  have hkey := RecordSpec.keyOf_write hwrite
  rw [specOf_key] at hkey
  have htwin (ht : trusted) (e : UInt64 × Nat) (he : e ∈ m) : keyOf (s.image e.2) ≠ some key :=
    habsent ht e.2 (h.mem_addrs.mpr ⟨e.1, he⟩)
  have hinv := h.placed (le_refl m) hfree (RecordSpec.isRecord_write hwrite) hkey ⟨atLeast, hreach₁.insert hroom hslot⟩
    (fun ht e he hsame => absurd hsame (htwin ht e he)) h.twins h.tickets h.oneTicket
  exact ⟨_, hinv, h.evolves_placed (le_refl m) hfree hinv⟩

theorem mem_shadowNoteMoved {new : Nat} {t : ShadowTicket} :
    t ∈ s.shadowNoteMoved old new ↔ ∃ t₀ ∈ s.tickets, t₀.cold ≠ old ∧
      (if t₀.winner = old then { t₀ with winner := new } else t₀) = t := by
  simp only [shadowNoteMoved, List.mem_map, mem_filter, decide_eq_true_eq, and_assoc]

/-- The ticket of a pair that an overwrite leaves alone. -/
private theorem mem_shadowNoteMoved_of_ne {new : Nat} {t : ShadowTicket} (ht : t ∈ s.tickets) (hcold : t.cold ≠ old)
    (hwinner : t.winner ≠ old) : t ∈ s.shadowNoteMoved old new :=
  mem_shadowNoteMoved.mpr ⟨t, ht, hcold, if_neg hwinner⟩

section
variable (h : Inv hashOf trusted s m)
include h

/-- The tickets that follow a moved record are as good as before. -/
theorem Inv.shadowNoteMoved {old new : Nat} (hnew : s.head ≤ new) :
    (∀ t ∈ s.shadowNoteMoved old new, t.cold < s.head ∧ s.head ≤ t.winner) ∧
      ∀ t ∈ s.shadowNoteMoved old new, ∀ t' ∈ s.shadowNoteMoved old new, t.cold = t'.cold → t = t' := by
  have hcold (t : ShadowTicket) : (if t.winner = old then { t with winner := new } else t).cold = t.cold := by
    split <;> rfl
  constructor
  · intro t ht
    obtain ⟨t₀, ht₀, -, rfl⟩ := mem_shadowNoteMoved.mp ht
    have hgood := h.tickets t₀ ht₀
    split
    · exact ⟨hgood.1, hnew⟩
    · exact hgood
  · intro t ht t' ht' heq
    obtain ⟨t₀, ht₀, -, rfl⟩ := mem_shadowNoteMoved.mp ht
    obtain ⟨t₁, ht₁, -, rfl⟩ := mem_shadowNoteMoved.mp ht'
    rw [hcold, hcold] at heq
    rw [h.oneTicket t₀ ht₀ t₁ ht₁ heq]

theorem Inv.head_le_tail : s.head ≤ s.tail := h.head_le.trans (h.flushed_le.trans h.ro_le)

variable {key : Bytes} {old addr : Nat}

theorem Inv.overwrite {payload : Payload} {version : Nat} (hcurrent : trusted → s.Current key old)
    (hfree : s.tail ≤ addr) (hover : s.overwrite (specOf key version payload) (hashOf key) old addr = some s') :
    ∃ m', Inv hashOf trusted s' m' ∧ Evolves s s' := by
  obtain ⟨bytes, index, hwrite, hreplace, rfl⟩ := overwrite_eq hover
  obtain ⟨atLeast, hreach⟩ := h.index
  have hentry := h.mem_of_replace hreplace
  have hkey := RecordSpec.keyOf_write hwrite
  rw [specOf_key] at hkey
  have hsub : m.erase (hashOf key, old) ≤ m := Multiset.erase_le _ _
  obtain ⟨htickets, hone⟩ := @Inv.shadowNoteMoved _ _ _ _ h old addr (h.head_le_tail.trans hfree)
  have htwin (ht : trusted) (e : UInt64 × Nat) (he : e ∈ m.erase (hashOf key, old)) (hsame' : keyOf (s.image e.2) = some key) :
      ∃ t ∈ s.shadowNoteMoved old addr, t.cold = e.2 ∧ t.winner = addr := by
    obtain ⟨-, hsame, hclass⟩ := hcurrent ht
    have hne : e.2 ≠ old := h.addr_ne_of_mem_erase hentry he
    have he := Multiset.mem_of_mem_erase he
    rcases Nat.lt_or_gt_of_ne hne with hlt | hlt
    · obtain ⟨t, hticket, hcold, hwinner⟩ := h.twins ht e he _ hentry hlt (hsame'.trans hsame.symm)
      refine ⟨{ t with winner := addr }, mem_shadowNoteMoved.mpr ⟨t, hticket, ?_, if_pos hwinner⟩, hcold, rfl⟩
      rw [hcold]
      exact hne
    · -- a twin above the old record is in memory, and then the old record is not the current one
      have hbetween := h.twin_classes ht hentry he hlt (hsame.trans hsame'.symm)
      rw [ne_eq, h.cold_iff] at hclass
      have hall := hclass.resolve_left (by omega) e.2 (h.mem_addrs.mpr ⟨e.1, he⟩) hsame'
      rw [h.cold_iff] at hall
      omega
  have htwins (ht : trusted) (e : UInt64 × Nat) (he : e ∈ m.erase (hashOf key, old)) (e' : UInt64 × Nat)
      (he' : e' ∈ m.erase (hashOf key, old)) (hlt : e.2 < e'.2) (hkeys : keyOf (s.image e.2) = keyOf (s.image e'.2)) :
      ∃ t ∈ s.shadowNoteMoved old addr, t.cold = e.2 ∧ t.winner = e'.2 := by
    obtain ⟨t, hticket, hcold, hwinner⟩ := h.twins ht e (Multiset.mem_of_mem_erase he) e' (Multiset.mem_of_mem_erase he') hlt hkeys
    refine ⟨t, mem_shadowNoteMoved_of_ne hticket ?_ ?_, hcold, hwinner⟩
    · rw [hcold]
      exact h.addr_ne_of_mem_erase hentry he
    · rw [hwinner]
      exact h.addr_ne_of_mem_erase hentry he'
  have hinv := h.placed hsub hfree (RecordSpec.isRecord_write hwrite) hkey
    ⟨atLeast, hreach.replace (exact_tieredMode m _ _) hreplace⟩ htwin htwins htickets hone
  exact ⟨_, hinv, h.evolves_placed hsub hfree hinv⟩

/-- A record rewritten where it is keeps its key. -/
theorem Inv.rewrite {bytes : Bytes} (hsame : keyOf (s.image old) = some key)
    (hclass : s.resolve old = .mutable) (hrecord : IsRecord bytes) (hkey : keyOf bytes = some key) :
    Inv hashOf trusted { s with image := Function.update s.image old bytes } m ∧
      Evolves s { s with image := Function.update s.image old bytes } := by
  have hkeys (a : Nat) : keyOf (Function.update s.image old bytes a) = keyOf (s.image a) := by
    by_cases heq : a = old
    · rw [heq, Function.update_self, hkey, hsame]
    · rw [Function.update_of_ne heq]
  constructor
  · constructor
    case index => exact h.index
    case nodup => exact h.nodup
    case isRecord =>
      intro e he
      change IsRecord (Function.update s.image old bytes e.2)
      by_cases heq : e.2 = old
      · rw [heq, Function.update_self]
        exact hrecord
      · rw [Function.update_of_ne heq]
        exact h.isRecord e he
    case hashed =>
      intro e he key'
      change keyOf (Function.update s.image old bytes e.2) = some key' → _
      rw [hkeys]
      exact h.hashed e he key'
    case below => exact h.below
    case head_le => exact h.head_le
    case flushed_le => exact h.flushed_le
    case ro_le => exact h.ro_le
    case twins =>
      intro ht e he e' he' hlt
      change keyOf (Function.update s.image old bytes e.2) = keyOf (Function.update s.image old bytes e'.2) → _
      rw [hkeys, hkeys]
      exact h.twins ht e he e' he' hlt
    case tickets => exact h.tickets
    case oneTicket => exact h.oneTicket
  · refine ⟨Nat.le_refl _, Nat.le_refl _, fun _ _ hslot => hslot, fun a _ => hkeys a, fun a ha => ?_⟩
    apply Function.update_of_ne
    intro heq
    rw [heq, ← h.cold_iff, hclass] at ha
    simp at ha

theorem Inv.update {value : Bytes} {version : Nat} (hkey : keyOf (s.image old) = some key) (hcurrent : trusted → s.Current key old)
    (hfree : s.tail ≤ addr) (hupdate : s.update (specOf key version (.inline value)) (hashOf key) old addr = some s') :
    ∃ m', Inv hashOf trusted s' m' ∧ Evolves s s' := by
  rw [TieredTable.update] at hupdate
  split at hupdate
  next hplace =>
    obtain ⟨bytes, hwrite, hupdate⟩ := bind_eq_some_iff.mp hupdate
    rw [← some.inj hupdate]
    rw [inPlace, decide_eq_true_eq] at hplace
    exact ⟨m, h.rewrite hkey hplace.2.1 (RecordSpec.isRecord_write hwrite) (RecordSpec.keyOf_write hwrite)⟩
  · exact h.overwrite hcurrent hfree hupdate

theorem Inv.delete {hash : UInt64} (hdelete : s.delete hash addr = some s') : ∃ m', Inv hashOf trusted s' m' ∧ Evolves s s' := by
  rw [TieredTable.delete] at hdelete
  split at hdelete
  · simp at hdelete
  obtain ⟨index, hremove, rfl⟩ := map_eq_some_iff.mp hdelete
  obtain ⟨atLeast, hreach⟩ := h.index
  have hinv := @Inv.dropped _ _ _ _ h _ index (s.shadowNoteRemoved addr)
    ⟨atLeast, hreach.remove (exact_tieredMode m _ _) hremove⟩ (fun t ht => mem_of_mem_filter ht)
    (fun t ht hcold hwinner => mem_filter.mpr ⟨ht, decide_eq_true ⟨hcold, hwinner⟩⟩) (h.mem_of_remove hremove)
  exact ⟨_, hinv, h.evolves_dropped hinv⟩

omit h in
theorem Inv.deletes {hash : UInt64} {twins : List Nat} (h : Inv hashOf trusted s m)
    (hrun : twins.foldlM (fun s twin => s.delete hash twin) s = some s') : ∃ m', Inv hashOf trusted s' m' ∧ Evolves s s' := by
  induction twins generalizing s m with
  | nil =>
    rw [← some.inj hrun]
    exact ⟨m, h, Nat.le_refl _, Nat.le_refl _, fun _ _ hslot => hslot, fun _ _ => rfl, fun _ _ => rfl⟩
  | cons twin twins ih =>
    rw [foldlM_cons] at hrun
    obtain ⟨s₁, hdelete, hrun⟩ := bind_eq_some_iff.mp hrun
    obtain ⟨m₁, hinv₁, hev₁⟩ := h.delete hdelete
    obtain ⟨m', hinv', hev'⟩ := ih hinv₁ hrun
    exact ⟨m', hinv', hev₁.trans hev'⟩

theorem Inv.stageDeleteRun {hash : UInt64} {twins : List Nat} (hrun : s.stageDeleteRun hash addr twins = some s') :
    ∃ m', Inv hashOf trusted s' m' ∧ Evolves s s' := by
  obtain ⟨s₁, htwins, hdelete⟩ := bind_eq_some_iff.mp hrun
  obtain ⟨m₁, hinv₁, hev₁⟩ := h.deletes htwins
  obtain ⟨m', hinv', hev'⟩ := hinv₁.delete hdelete
  exact ⟨m', hinv', hev₁.trans hev'⟩

theorem Inv.relocate (hkey : keyOf (s.image old) = some key)
    (hcold : s.resolve old = .cold) (hticket : ∀ t ∈ s.tickets, t.cold ≠ old) (hfree : s.tail ≤ addr)
    (hrelocate : s.relocate (hashOf key) old addr = some s') : ∃ m', Inv hashOf trusted s' m' ∧ Evolves s s' := by
  obtain ⟨index, hreplace, rfl⟩ := map_eq_some_iff.mp hrelocate
  obtain ⟨atLeast, hreach⟩ := h.index
  have hentry := h.mem_of_replace hreplace
  have hsub : m.erase (hashOf key, old) ≤ m := Multiset.erase_le _ _
  rw [h.cold_iff] at hcold
  have htwin (htrusted : trusted) (e : UInt64 × Nat) (he : e ∈ m.erase (hashOf key, old)) : keyOf (s.image e.2) ≠ some key := by
    intro hsame
    have hne : e.2 ≠ old := h.addr_ne_of_mem_erase hentry he
    have he := Multiset.mem_of_mem_erase he
    rcases Nat.lt_or_gt_of_ne hne with hlt | hlt
    · have hbetween := h.twin_classes htrusted he hentry hlt (hsame.trans hkey.symm)
      exact absurd hbetween.2 (Nat.not_le_of_lt hcold)
    · obtain ⟨t, ht, htcold, -⟩ := h.twins htrusted _ hentry e he hlt (hkey.trans hsame.symm)
      exact hticket t ht htcold
  have hinv := h.placed hsub hfree (h.isRecord _ hentry) hkey ⟨atLeast, hreach.replace (exact_tieredMode m _ _) hreplace⟩
    (fun ht e he hsame => absurd hsame (htwin ht e he))
    (fun ht e he e' he' => h.twins ht e (Multiset.mem_of_mem_erase he) e' (Multiset.mem_of_mem_erase he')) h.tickets h.oneTicket
  exact ⟨_, hinv, h.evolves_placed hsub hfree hinv⟩

theorem Inv.exists_rep : ∃ layout, s.index.Rep layout ∧ entries layout = m := by
  obtain ⟨atLeast, hreach⟩ := h.index
  exact hreach.rep

end

theorem keyOf_eq_some {key : Bytes} : keyOf (s.image addr) = some key ↔ (s.record addr).any (·.key = key) = true := by
  rw [keyOf, record, map_eq_some_iff, Option.any_eq_true]
  simp only [decide_eq_true_eq]

section
variable (h : Inv hashOf trusted s m)
include h

variable {key : Bytes} {hash : UInt64} {exclude : List Nat} {addr : Nat}

/-- A hit in memory is a record of the key, and not cold. -/
theorem Inv.lookup_ram (hlookup : s.lookup key hash exclude = .ram addr) : s.Current key addr ∧ s.resolve addr ≠ .cold := by
  obtain ⟨layout, hrep, hm⟩ := h.exists_rep
  rw [lookup] at hlookup
  split at hlookup
  next found hfind =>
    rw [← TieredLookup.ram.inj hlookup]
    obtain ⟨hash', hmem, -, -, hverify⟩ := hrep.find_some hfind
    rw [decide_eq_true_eq] at hverify
    rw [hm] at hmem
    exact ⟨⟨h.mem_addrs.mpr ⟨hash', hmem⟩, keyOf_eq_some.mpr hverify.2, Or.inl hverify.1⟩, hverify.1⟩
  · split at hlookup
    · simp at hlookup
    · simp at hlookup

/-- When a lookup does not hit in memory, no record of the key is there. -/
theorem Inv.cold_of_lookup (hlookup : ∀ addr, s.lookup key (hashOf key) exclude ≠ .ram addr) (haddr : addr ∈ s.addrs)
    (hkey : keyOf (s.image addr) = some key) : s.resolve addr = .cold := by
  obtain ⟨layout, hrep, hm⟩ := h.exists_rep
  by_contra hram
  have hmem := h.mem_of_addrs haddr hkey
  rw [← hm] at hmem
  cases hfind : s.index.find (hashOf key) fun addr => s.resolve addr ≠ .cold ∧ (s.record addr).any (·.key = key) with
  | none => exact hrep.find_ne_none hmem (decide_eq_true ⟨hram, keyOf_eq_some.mp hkey⟩) hfind
  | some found =>
    apply hlookup found
    rw [lookup, hfind]

/-- A cold candidate is slotted and not excluded. -/
theorem Inv.lookup_cold
    (hlookup : s.lookup key hash exclude = .cold addr) : addr ∈ s.addrs ∧ s.resolve addr = .cold ∧ addr ∉ exclude := by
  obtain ⟨layout, hrep, hm⟩ := h.exists_rep
  rw [lookup] at hlookup
  split at hlookup
  · simp at hlookup
  split at hlookup
  next found hfind =>
    rw [← TieredLookup.cold.inj hlookup]
    obtain ⟨hash', hmem, -, -, hverify⟩ := hrep.find_some hfind
    rw [decide_eq_true_eq] at hverify
    rw [hm] at hmem
    exact ⟨h.mem_addrs.mpr ⟨hash', hmem⟩, hverify⟩
  · simp at hlookup

/-- A miss leaves only excluded addresses for records of the key. -/
theorem Inv.lookup_miss (hlookup : s.lookup key (hashOf key) exclude = .miss)
    (haddr : addr ∈ s.addrs) (hkey : keyOf (s.image addr) = some key) : addr ∈ exclude := by
  have hcold := h.cold_of_lookup (fun _ => by rw [hlookup]; simp) haddr hkey
  obtain ⟨layout, hrep, hm⟩ := h.exists_rep
  have hmem := h.mem_of_addrs haddr hkey
  rw [← hm] at hmem
  by_contra hout
  rw [lookup] at hlookup
  split at hlookup
  · simp at hlookup
  split at hlookup
  · simp at hlookup
  rename_i hfind
  exact hrep.find_ne_none hmem (decide_eq_true ⟨hcold, hout⟩) hfind

/-- Every cold slot with exactly the hash is among those the write path counts. -/
theorem Inv.mem_exactCold (hmem : (hash, addr) ∈ m) (hcold : s.resolve addr = .cold) : addr ∈ s.exactCold hash := by
  obtain ⟨layout, hrep, hm⟩ := h.exists_rep
  rw [← hm] at hmem
  obtain ⟨pos, hpos⟩ := mem_entries.mp hmem
  obtain ⟨slot, hslot, hkeeps⟩ := hrep.slot hpos
  rw [exactCold, mem_filter, mem_filterMap]
  refine ⟨⟨pos, Index.mem_flatMap_positions.mpr (hrep.chained pos _ hpos), ?_⟩, decide_eq_true hcold⟩
  rw [hslot, hkeeps, bind_some, IndexSlot.of, IndexSlot.fragment, if_pos ⟨rfl, rfl, tieredMode.matches_set hash⟩]

theorem Inv.shadowInsert {value : Bytes} {cold : Option Nat} {candidate : Nat}
    (hlookup : s.lookup key (hashOf key) [] = .cold candidate) (hexact : s.exactCold (hashOf key) = cold.toList)
    (hticket : ∀ t ∈ s.tickets, t.cold ∉ cold) (hfree : s.tail ≤ addr)
    (hinsert : s.shadowInsert (specOf key 0 (.inline value)) (hashOf key) cold addr = some s') :
    ∃ m', Inv hashOf trusted s' m' ∧ Evolves s s' := by
  obtain ⟨s₁, hinserted, rfl⟩ := map_eq_some_iff.mp hinsert
  obtain ⟨bytes, index₁, index₂, hwrite, hroomy, hslot, rfl⟩ := insert_eq hinserted
  obtain ⟨atLeast, hreach⟩ := h.index
  obtain ⟨hreach₁, hroom⟩ := roomy_spec hreach hroomy
  have hkey := RecordSpec.keyOf_write hwrite
  rw [specOf_key] at hkey
  have hmem (a : Nat) : a ∈ s.exactCold (hashOf key) ↔ a ∈ cold := by
    rw [hexact]
    exact Option.mem_toList
  have htwin (e : UInt64 × Nat) (he : e ∈ m) (hsame : keyOf (s.image e.2) = some key) : e.2 ∈ cold := by
    have hslotted : e.2 ∈ s.addrs := h.mem_addrs.mpr ⟨e.1, he⟩
    have hcold := h.cold_of_lookup (fun _ => by rw [hlookup]; simp) hslotted hsame
    exact (hmem e.2).mp (h.mem_exactCold (h.mem_of_addrs hslotted hsame) hcold)
  have hcold (c : Nat) (hc : c ∈ cold) : c < s.head := by
    have hin := (hmem c).mpr hc
    rw [exactCold, mem_filter, decide_eq_true_eq, h.cold_iff] at hin
    exact hin.2
  have htickets (t : ShadowTicket) : t ∈ (cold.map fun c => ⟨hashOf key, c, addr⟩).toList ++ s.tickets ↔
      (∃ c ∈ cold, ⟨hashOf key, c, addr⟩ = t) ∨ t ∈ s.tickets := by
    rw [mem_append, Option.mem_toList, map_eq_some_iff]
    rfl
  have hinv := @Inv.placed _ _ _ _ h _ index₂ ((cold.map fun c => ⟨hashOf key, c, addr⟩).toList ++ s.tickets) _ _ _ (le_refl m)
    hfree (RecordSpec.isRecord_write hwrite) hkey ⟨atLeast, hreach₁.insert hroom hslot⟩
    (fun _ e he hsame => ⟨_, (htickets _).mpr (Or.inl ⟨e.2, htwin e he hsame, rfl⟩), rfl, rfl⟩)
    (fun ht e he e' he' hlt hkeys => by
      obtain ⟨t, hmem, hpair⟩ := h.twins ht e he e' he' hlt hkeys
      exact ⟨t, (htickets t).mpr (Or.inr hmem), hpair⟩)
    (fun t ht => by
      rcases (htickets t).mp ht with ⟨c, hc, rfl⟩ | ht
      · exact ⟨hcold c hc, h.head_le_tail.trans hfree⟩
      · exact h.tickets t ht)
    (fun t ht t' ht' heq => by
      rcases (htickets t).mp ht with ⟨c, hc, rfl⟩ | ht
      · rcases (htickets t').mp ht' with ⟨c', hc', rfl⟩ | ht'
        · rw [show c = c' from heq]
        · exact absurd hc (by rw [show c = t'.cold from heq]; exact hticket t' ht')
      · rcases (htickets t').mp ht' with ⟨c', hc', rfl⟩ | ht'
        · exact absurd hc' (by rw [show c' = t.cold from heq.symm]; exact hticket t ht)
        · exact h.oneTicket t ht t' ht' heq)
  exact ⟨_, hinv, h.evolves_placed (le_refl m) hfree hinv⟩

theorem Inv.collision {t : ShadowTicket} (ht : t ∈ s.tickets)
    (hkeys : keyOf (s.image t.cold) ≠ keyOf (s.image t.winner)) : Inv hashOf trusted (s.dropTicket t.cold) m :=
  { h with
    twins := by
      intro htrusted e he e' he' hlt hsame
      obtain ⟨t', ht', hcold, hwinner⟩ := h.twins htrusted e he e' he' hlt hsame
      refine ⟨t', mem_filter.mpr ⟨ht', decide_eq_true fun heq => hkeys ?_⟩, hcold, hwinner⟩
      rw [← h.oneTicket t' ht' t ht heq, hcold, hwinner]
      exact hsame
    tickets := fun t' ht' => h.tickets t' (mem_of_mem_filter ht')
    oneTicket := fun t₁ ht₁ t₂ ht₂ => h.oneTicket t₁ (mem_of_mem_filter ht₁) t₂ (mem_of_mem_filter ht₂) }

theorem Inv.settle {t : ShadowTicket} (hsettle : s.settleTicket t = some s') :
    ∃ m', Inv hashOf trusted s' m' ∧ Evolves s s' := by
  obtain ⟨index, hremove, rfl⟩ := map_eq_some_iff.mp hsettle
  obtain ⟨atLeast, hreach⟩ := h.index
  have hinv := @Inv.dropped _ _ _ _ h _ index (s.tickets.filter (·.cold ≠ t.cold))
    ⟨atLeast, hreach.remove (exact_tieredMode m _ _) hremove⟩ (fun t' ht' => mem_of_mem_filter ht')
    (fun t' ht' hcold _ => mem_filter.mpr ⟨ht', decide_eq_true hcold⟩) (h.mem_of_remove hremove)
  exact ⟨_, hinv, h.evolves_dropped hinv⟩

theorem Inv.release (hrelease : s.release addr = some s') : Inv hashOf trusted s' m ∧ Evolves s s' := by
  rw [TieredTable.release] at hrelease
  split at hrelease
  next hto =>
    rw [← some.inj hrelease]
    constructor
    · exact { h with
        head_le := hto.2.1
        tickets := fun t ht => ⟨Nat.lt_of_lt_of_le (h.tickets t ht).1 hto.1, hto.2.2 t ht⟩ }
    · exact ⟨hto.1, Nat.le_refl _, fun _ _ hslot => hslot, fun _ _ => rfl, fun _ _ => rfl⟩
  · simp at hrelease

theorem Inv.step (hstep : Step hashOf s s') : ∃ m', Inv hashOf trusted s' m' ∧ Evolves s s' := by
  cases hstep with
  | relocate key old addr hkey hcold hticket hfree hrelocate => exact h.relocate hkey hcold hticket hfree hrelocate
  | shadowInsert key value cold addr candidate hlookup hexact hticket hfree hinsert =>
    exact h.shadowInsert hlookup hexact hticket hfree hinsert
  | collision t ht hkeys =>
    exact ⟨m, h.collision ht hkeys, Nat.le_refl _, Nat.le_refl _, fun _ _ hslot => hslot, fun _ _ => rfl, fun _ _ => rfl⟩
  | settle t ht hkeys hsettle => exact h.settle hsettle
  | sealTo addr hto htail =>
    exact ⟨m, { h with flushed_le := h.flushed_le.trans hto, ro_le := htail }, Nat.le_refl _, Nat.le_refl _,
      fun _ _ hslot => hslot, fun _ _ => rfl, fun _ _ => rfl⟩
  | flushTo addr hto hro =>
    exact ⟨m, { h with head_le := h.head_le.trans hto, flushed_le := hro }, Nat.le_refl _, Nat.le_refl _,
      fun _ _ hslot => hslot, fun _ _ => rfl, fun _ _ => rfl⟩
  | release addr hrelease => exact ⟨m, h.release hrelease⟩

end

theorem new_inv (initialKeys origin : Nat) : Inv hashOf trusted (new initialKeys origin) 0 := by
  constructor
  case index => exact ⟨_, Index.Reaches.withCapacity⟩
  case nodup => exact Multiset.nodup_zero
  case isRecord => exact fun e he => absurd he (Multiset.notMem_zero e)
  case hashed => exact fun e he => absurd he (Multiset.notMem_zero e)
  case below => exact fun e he => absurd he (Multiset.notMem_zero e)
  case head_le => exact Nat.le_refl _
  case flushed_le => exact Nat.le_refl _
  case ro_le => exact Nat.le_refl _
  case twins => exact fun _ e he => absurd he (Multiset.notMem_zero e)
  case tickets => exact fun t ht => absurd ht not_mem_nil
  case oneTicket => exact fun t ht => absurd ht not_mem_nil

end TieredTable

end InfinityDB.Tiered
