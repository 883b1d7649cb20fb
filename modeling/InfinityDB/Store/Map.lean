import InfinityDB.Store.Records

/-!
# The store as a map

Each key has at most one record, and the table finds it whatever the hashes are. Through writes in
place, moves, removals, rebuilds and reads that reap, the store stays the map its commands mean.
-/

namespace InfinityDB.Records

open Option Function

inductive Lookup where
  | live (addr : Nat)
  | reaped (addr : Nat)
  | absent

variable {Key : Type}

/-- `lookup_hashed`: a record that is found expired is freed. -/
def lookupHashed [DecidableEq Key] (hasher : Key → UInt64) (s : Records Key) (key : Key) (nowMs : Nat) : Option (Records Key × Lookup) :=
  match s.find hasher key with
  | none => some (s, .absent)
  | some addr => do
    let r ← s.arena addr
    if r.isExpired nowMs then (s.removeRecord hasher addr).map (·, .reaped addr) else some (s, .live addr)

/-- The store is the map `c` from keys to records and their addresses. -/
structure Maps (hasher : Key → UInt64) (s : Records Key) (c : Key → Option (Nat × Record Key)) : Prop where
  valid : ∃ layout, s.Valid hasher layout
  arena : ∀ a r, s.arena a = some r ↔ c r.key = some (a, r)
  keyed : ∀ key a r, c key = some (a, r) → r.key = key

variable {hasher : Key → UInt64} {s s' : Records Key} {c : Key → Option (Nat × Record Key)} {spec r : Record Key}
  {addr : Nat} {key : Key}

theorem Maps.congr (h : s.Maps hasher c) (hvalid : ∃ layout, s'.Valid hasher layout) (harena : s'.arena = s.arena) :
    s'.Maps hasher c :=
  ⟨hvalid, by rw [harena]; exact h.arena, h.keyed⟩

theorem Maps.grow (h : s.Maps hasher c) (hgrow : s.grow hasher = some s') : s'.Maps hasher c := by
  obtain ⟨layout, hvalid⟩ := h.valid
  obtain ⟨hvalid', harena, -⟩ := hvalid.grow hgrow
  exact h.congr hvalid' harena

variable [DecidableEq Key]

theorem Maps.find (h : s.Maps hasher c) (key : Key) : s.find hasher key = (c key).map Prod.fst := by
  obtain ⟨layout, hvalid⟩ := h.valid
  cases hfind : s.find hasher key with
  | none =>
    rw [eq_comm, map_eq_none_iff, eq_none_iff_forall_ne_some]
    rintro ⟨a, r⟩ hc
    obtain rfl := h.keyed key a r hc
    exact hvalid.find_none hfind ((h.arena a r).mpr hc) rfl
  | some addr =>
    obtain ⟨r, hr, rfl⟩ := hvalid.find_some hfind
    rw [(h.arena addr r).mp hr, map_some]

/-- The record of one key is replaced by `new`, the others are where they were. -/
theorem Maps.change (h : s.Maps hasher c) (hvalid : ∃ layout, s'.Valid hasher layout) {new : Option (Nat × Record Key)}
    (hnew : ∀ a r, new = some (a, r) → r.key = key)
    (harena : ∀ a r, s'.arena a = some r ↔ update c key new r.key = some (a, r)) : s'.Maps hasher (update c key new) := by
  refine ⟨hvalid, harena, fun k a r hk => ?_⟩
  rw [update_apply] at hk
  split at hk
  next heq => rw [heq, hnew a r hk]
  · exact h.keyed k a r hk

theorem Maps.remove (h : s.Maps hasher c) (hr : s.arena addr = some r) :
    ∃ s', s.removeRecord hasher addr = some s' ∧ s'.Maps hasher (update c r.key none) := by
  obtain ⟨layout, hvalid⟩ := h.valid
  obtain ⟨t, pos, hremove, -, hvalid', -⟩ := hvalid.remove hr
  refine ⟨_, hremove, h.change ⟨_, hvalid'⟩ nofun fun a r' => ?_⟩
  have hone := (h.arena addr r).mp hr
  have hold := h.arena a r'
  simp only [update_apply]
  grind

theorem Maps.written {layout layout' : Layout Nat} {written : Option Nat} (h : s.Maps hasher c) (hvalid : s'.Valid hasher layout')
    (hw : Written hasher s layout spec s' layout' written) :
    s'.Maps hasher (written.elim c fun addr => update c spec.key (some (addr, spec))) := by
  cases hw with
  | refused => exact h
  | inPlace hr hkey | moved hr hkey hfree | entered habsent hfree =>
    -- no other address has a record of the key
    refine h.change ⟨_, hvalid⟩ (by simp) fun a r => ?_
    have hold := h.arena a r
    simp only [update_apply]
    grind [h.arena]

theorem Maps.write {written : Option Nat} (h : s.Maps hasher c) (hw : s.Writes hasher spec s' written) :
    s'.Maps hasher (written.elim c fun addr => update c spec.key (some (addr, spec))) := by
  obtain ⟨layout, hvalid⟩ := h.valid
  rcases hvalid.write hw with ⟨layout', h', hw⟩ | ⟨s₁, layout₁, layout', hrebuilt, h₁, h', hw⟩
  · exact h.written h' hw
  · exact (h.congr ⟨_, h₁⟩ hrebuilt.1).written h' hw

/-- Where a write puts its record: at the old place if it fits there, and else where the arena says. -/
def placed (c : Key → Option (Nat × Record Key)) (key : Key) (resized : Bool) (target : Option Nat) : Option Nat :=
  match c key with
  | some (addr, _) => if resized then some addr else target
  | none => target

omit [DecidableEq Key] in
/-- A write of a new key rebuilds the table first if it has to. -/
theorem Valid.roomy {layout : Layout Nat} (h : s.Valid hasher layout) (hcap : s.index.capacity * 2 < usizeLimit) :
    ∃ s₁ : Records Key, (∀ spec resized target,
      s.writeRecordAt hasher none spec resized target = s₁.insertRecord hasher spec target) ∧
      s₁.arena = s.arena ∧ s₁.index.needsGrow = false ∧ ∃ layout, s₁.Valid hasher layout := by
  by_cases hneeds : s.index.needsGrow = true
  · obtain ⟨t, layout', ht, -, -, -, -, hsize⟩ := @Index.Rep.grow_spec _ _ _ _ (fun addr _ => s.hashAt hasher addr) h.rep
      (h.backed.rehashes _ fun addr r hr => hashAt_of_arena hr)
    have hgrow : s.grow hasher = some { s with index := t } := by
      rw [Records.grow, ht, bind_eq_bind, bind_some, if_pos (by omega)]
    obtain ⟨hvalid, harena, hroom, -⟩ := h.grow hgrow
    refine ⟨_, fun spec resized target => ?_, harena, hroom, hvalid⟩
    rw [writeRecordAt, if_pos hneeds, hgrow]
    rfl
  · refine ⟨s, fun spec resized target => ?_, rfl, Bool.eq_false_iff.mpr hneeds, layout, h⟩
    rw [writeRecordAt, if_neg hneeds]
    rfl

/-- A write ends while the table may still double, and sets its key where the record is placed. -/
theorem Maps.write_placed (h : s.Maps hasher c) (hcap : s.index.capacity * 2 < usizeLimit) (spec : Record Key) (resized : Bool)
    (target : Option Nat) (hfree : ∀ a, target = some a → s.arena a = none) :
    ∃ s', s.writeRecordAt hasher (s.find hasher spec.key) spec resized target = some (s', placed c spec.key resized target) ∧
      s'.Maps hasher ((placed c spec.key resized target).elim c fun addr => update c spec.key (some (addr, spec))) := by
  suffices hsome : ∃ s', s.writeRecordAt hasher (s.find hasher spec.key) spec resized target =
      some (s', placed c spec.key resized target) by
    obtain ⟨s', hwrite⟩ := hsome
    exact ⟨s', hwrite, h.write ⟨resized, target, hfree, hwrite⟩⟩
  obtain ⟨layout, hvalid⟩ := h.valid
  rw [h.find, placed]
  cases hc : c spec.key with
  | some found =>
    obtain ⟨addr, r⟩ := found
    have hkey := h.keyed spec.key addr r hc
    rw [← hkey] at hc
    cases resized with
    | true => exact ⟨_, rfl⟩
    | false =>
      cases target with
      | none => exact ⟨_, rfl⟩
      | some new =>
        obtain ⟨t, pos, hreplace, -⟩ := hvalid.replace ((h.arena addr r).mpr hc) (hfree new rfl) hkey.symm
        exact ⟨_, by rw [map_some, writeRecordAt, if_neg Bool.false_ne_true, moveRecord, hreplace]; rfl⟩
  | none =>
    obtain ⟨s₁, hs₁, harena, hroom, layout₁, hvalid₁⟩ := hvalid.roomy hcap
    rw [map_none, hs₁]
    cases target with
    | none => exact ⟨_, rfl⟩
    | some new =>
      rw [← harena] at hfree
      obtain ⟨t, pos, hinsert, -⟩ := hvalid₁.insert hroom (hfree new rfl) spec
      exact ⟨_, by rw [insertRecord, hinsert]; rfl⟩

theorem Maps.lookup (h : s.Maps hasher c) (key : Key) (nowMs : Nat) : ∃ s', s'.Maps hasher
      (update c key ((c key).filter fun x => !x.2.isExpired nowMs)) ∧ s.lookupHashed hasher key nowMs =
      some (s', (c key).elim .absent fun x => if x.2.isExpired nowMs then .reaped x.1 else .live x.1) := by
  rw [lookupHashed, h.find]
  cases hc : c key with
  | none => exact ⟨s, by rwa [filter_none, ← hc, update_eq_self], rfl⟩
  | some found =>
    obtain ⟨addr, r⟩ := found
    obtain rfl := h.keyed key addr r hc
    have hr := (h.arena addr r).mpr hc
    cases hexp : r.isExpired nowMs with
    | true =>
      obtain ⟨s', hremove, h'⟩ := h.remove hr
      exact ⟨s', by simpa [filter_some, hexp] using h', by simp [hr, hexp, hremove]⟩
    | false => exact ⟨s, by rwa [filter_some, if_pos (by simp [hexp]), ← hc, update_eq_self], by simp [hr, hexp]⟩

theorem Reachable.maps (h : Reachable hasher s) : ∃ c, s.Maps hasher c := by
  induction h with
  | new keys hfits => exact ⟨fun _ => none, new_valid keys hfits, by simp [Records.new], by simp⟩
  | @step s s' _ hstep ih =>
    obtain ⟨c, h⟩ := ih
    cases hstep with
    | write hw => exact ⟨_, h.write hw⟩
    | grow hgrow => exact ⟨_, h.grow hgrow⟩
    | remove addr hremove =>
      cases hr : s.arena addr with
      | none => simp [removeRecord, hr] at hremove
      | some r =>
        obtain ⟨s₁, hs₁, h₁⟩ := h.remove hr
        exact ⟨_, some.inj (hs₁.symm.trans hremove) ▸ h₁⟩

/-- Every reachable store is a map: a lookup finds the address of the key's record, a write that the arena gives a place
sets its key, a removal clears the key of its record, a read clears it if it is over, and a rebuild changes nothing. -/
theorem store_refines_map (h : Reachable hasher s) : ∃ c, s.Maps hasher c ∧
    (∀ key, s.find hasher key = (c key).map Prod.fst) ∧
    (∀ spec resized target, s.index.capacity * 2 < usizeLimit → (∀ a, target = some a → s.arena a = none) →
      ∃ s', s.writeRecordAt hasher (s.find hasher spec.key) spec resized target = some (s', placed c spec.key resized target) ∧
        s'.Maps hasher ((placed c spec.key resized target).elim c fun addr => update c spec.key (some (addr, spec)))) ∧
    (∀ addr r, s.arena addr = some r → ∃ s', s.removeRecord hasher addr = some s' ∧ s'.Maps hasher (update c r.key none)) ∧
    (∀ key nowMs, ∃ s', s'.Maps hasher (update c key ((c key).filter fun x => !x.2.isExpired nowMs)) ∧
      s.lookupHashed hasher key nowMs =
        some (s', (c key).elim .absent fun x => if x.2.isExpired nowMs then .reaped x.1 else .live x.1)) ∧
    ∀ s', s.grow hasher = some s' → s'.Maps hasher c := by
  obtain ⟨c, h⟩ := h.maps
  exact ⟨c, h, h.find, fun spec resized target hcap => h.write_placed hcap spec resized target, fun _ _ => h.remove, h.lookup,
    fun _ => h.grow⟩

/-- The record of 5 moves with a new value, and that of 6 stays. -/
theorem store_refines_map_pair : ∃ s',
    pair.writeRecordAt Nat.toUInt64 (pair.find Nat.toUInt64 5) ⟨5, [2], none, nofun⟩ false (some 3) = some (s', some 3) ∧
      s'.find Nat.toUInt64 5 = some 3 ∧ s'.find Nat.toUInt64 6 = some 1 := by
  obtain ⟨c, hmaps, hfind, hwrite, -⟩ := store_refines_map pair_reachable
  have hfive : (c 5).map Prod.fst = some 0 := (hfind 5).symm.trans (by decide +kernel)
  have hsix : (c 6).map Prod.fst = some 1 := (hfind 6).symm.trans (by decide +kernel)
  obtain ⟨⟨addr, r⟩, hfive, -⟩ := map_eq_some_iff.mp hfive
  obtain ⟨s', hwritten, hmaps'⟩ := hwrite ⟨5, [2], none, nofun⟩ false (some 3) (by decide +kernel) fun a ha => by
    rw [← some.inj ha]
    decide +kernel
  have hplaced : placed c 5 false (some 3) = some 3 := by rw [placed, hfive]; rfl
  rw [hplaced] at hwritten hmaps'
  refine ⟨s', hwritten, ?_, ?_⟩
  · rw [hmaps'.find, elim_some, update_self]
    rfl
  · rw [hmaps'.find, elim_some, update_of_ne (by decide)]
    exact hsix

end InfinityDB.Records
