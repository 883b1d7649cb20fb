import InfinityDB.Table.Refinement

/-!
# The records of a store

The table keeps addresses and the arena keeps the records at them. A record enters, moves and leaves
through the choke points of the lifecycle, and at every moment the table has one entry for each
record, under the hash of its key.
-/

namespace InfinityDB

open Option

/-- The largest deadline a record can carry. -/
def maxExpireMs : Nat := 2 ^ 40 - 1

structure Record (Key : Type) where
  key : Key
  value : List UInt8
  expireAtMs : Option Nat
  fits : ∀ d, expireAtMs = some d → d ≤ maxExpireMs

variable {Key : Type}

def Record.isExpired (r : Record Key) (nowMs : Nat) : Bool := r.expireAtMs.any fun at_ms => at_ms < nowMs

structure Records (Key : Type) where
  index : Index memoryMode Nat
  arena : Nat → Option (Record Key)

namespace Records

/-- Sizes are `usize`: a larger table is an allocation failure. -/
def usizeLimit : Nat := 2 ^ 64

def new (keys : Nat) : Records Key := ⟨Index.withCapacity keys, fun _ => none⟩

def hashAt (hasher : Key → UInt64) (s : Records Key) (addr : Nat) : UInt64 := (s.arena addr).elim 0 fun r => hasher r.key

def find [DecidableEq Key] (hasher : Key → UInt64) (s : Records Key) (key : Key) : Option Nat :=
  s.index.find (hasher key) fun addr => (s.arena addr).any fun r => r.key = key

/-- A rebuild, with the hashes of the records' keys. -/
def grow (hasher : Key → UInt64) (s : Records Key) : Option (Records Key) := do
  let index ← s.index.grow fun addr _ => s.hashAt hasher addr
  if index.capacity < usizeLimit then some { s with index := index } else none

/-- A record moves to the address the arena gave, if it gave one. -/
def moveRecord (hasher : Key → UInt64) (s : Records Key) (addr : Nat) (spec : Record Key) :
    Option Nat → Option (Records Key × Option Nat)
  | none => some (s, none)
  | some new => do
    let index ← s.index.replace (hasher spec.key) addr new
    some (⟨index, Function.update (Function.update s.arena new (some spec)) addr none⟩, some new)

/-- A record enters at the address the arena gave, if it gave one. -/
def insertRecord (hasher : Key → UInt64) (s : Records Key) (spec : Record Key) : Option Nat → Option (Records Key × Option Nat)
  | none => some (s, none)
  | some new => do
    let index ← s.index.insert (hasher spec.key) new
    some (⟨index, Function.update s.arena new (some spec)⟩, some new)

/-- The physical write, and the address written; `target` is the arena's answer, `none` when it is
out of memory. `resized` says that the record kept its place. -/
def writeRecordAt (hasher : Key → UInt64) (s : Records Key) (existing : Option Nat) (spec : Record Key) (resized : Bool)
    (target : Option Nat) : Option (Records Key × Option Nat) :=
  match existing with
  | some addr =>
    if resized then some ({ s with arena := Function.update s.arena addr (some spec) }, some addr)
    else s.moveRecord hasher addr spec target
  | none => do
    let s ← if s.index.needsGrow then s.grow hasher else some s
    s.insertRecord hasher spec target

def removeRecord (hasher : Key → UInt64) (s : Records Key) (addr : Nat) : Option (Records Key) := do
  let r ← s.arena addr
  let index ← s.index.remove (hasher r.key) addr
  some ⟨index, Function.update s.arena addr none⟩

/-- Each entry is of a record, under the hash of its key, and each record has its one entry. -/
structure Backed (hasher : Key → UInt64) (arena : Nat → Option (Record Key)) (m : Multiset (UInt64 × Nat)) : Prop where
  records : ∀ e ∈ m, ∃ r, arena e.2 = some r ∧ hasher r.key = e.1
  indexed : ∀ addr r, arena addr = some r → (hasher r.key, addr) ∈ m
  nodup : m.Nodup

structure Valid (hasher : Key → UInt64) (s : Records Key) (layout : Layout Nat) : Prop where
  rep : s.index.Rep layout
  backed : Backed hasher s.arena (entries layout)
  fits : s.index.capacity < usizeLimit

variable {hasher : Key → UInt64} {s s' : Records Key} {layout : Layout Nat}

variable {arena : Nat → Option (Record Key)} {m : Multiset (UInt64 × Nat)} {addr : Nat} {r spec : Record Key}

/-- An address is under one hash, so a removal finds its own entry. -/
theorem Backed.exact
    (h : Backed hasher arena m) (hr : arena addr = some r) : Exact memoryMode m (hasher r.key) addr := by
  intro hash' hmem _ _
  obtain ⟨r', hr', hhash⟩ := h.records _ hmem
  rw [hr, some.injEq] at hr'
  rw [hr']
  exact hhash.symm

/-- An address without a record is in no entry. -/
theorem Backed.not_mem (h : Backed hasher arena m) (hfree : arena addr = none) (hash : UInt64) : (hash, addr) ∉ m := by
  intro hmem
  obtain ⟨r, hr, -⟩ := h.records _ hmem
  rw [hfree] at hr
  simp at hr

theorem Backed.insert {arena : Nat → Option (Record Key)} {m : Multiset (UInt64 × Nat)} {addr : Nat} (h : Backed hasher arena m)
    (hfree : arena addr = none) (r : Record Key) : Backed hasher (Function.update arena addr (some r)) ((hasher r.key, addr) ::ₘ m) where
  records e he := by
    rcases Multiset.mem_cons.mp he with heq | he
    · rw [heq]
      exact ⟨r, Function.update_self _ _ _, rfl⟩
    · have hne : e.2 ≠ addr := by
        intro heq
        exact h.not_mem hfree e.1 (by rw [← heq]; exact he)
      rw [Function.update_of_ne hne]
      exact h.records e he
  indexed a r' hr' := by
    by_cases heq : a = addr
    · rw [heq, Function.update_self, some.injEq] at hr'
      rw [heq, hr']
      exact Multiset.mem_cons_self _ _
    · rw [Function.update_of_ne heq] at hr'
      exact Multiset.mem_cons_of_mem (h.indexed a r' hr')
  nodup := Multiset.nodup_cons.mpr ⟨h.not_mem hfree _, h.nodup⟩

theorem Backed.erase (h : Backed hasher arena m) (hr : arena addr = some r) :
    Backed hasher (Function.update arena addr none) (m.erase (hasher r.key, addr)) where
  records e he := by
    obtain ⟨hne, hmem⟩ := h.nodup.mem_erase_iff.mp he
    obtain ⟨r', hr', hhash⟩ := h.records e hmem
    have haddr : e.2 ≠ addr := by
      intro heq
      rw [heq, hr, some.injEq] at hr'
      apply hne
      rw [hr', hhash, ← heq]
    rw [Function.update_of_ne haddr]
    exact ⟨r', hr', hhash⟩
  indexed a r' hr' := by
    have hne : a ≠ addr := by
      intro heq
      rw [heq, Function.update_self] at hr'
      simp at hr'
    rw [Function.update_of_ne hne] at hr'
    rw [h.nodup.mem_erase_iff]
    exact ⟨fun heq => hne (congrArg Prod.snd heq), h.indexed a r' hr'⟩
  nodup := h.nodup.erase _

/-- A record rewritten in place under its own key. -/
theorem Backed.rewrite (h : Backed hasher arena m) (hr : arena addr = some r) (hkey : spec.key = r.key) :
    Backed hasher (Function.update arena addr (some spec)) m where
  records e he := by
    obtain ⟨r', hr', hhash⟩ := h.records e he
    by_cases heq : e.2 = addr
    · rw [heq, hr, some.injEq] at hr'
      rw [heq, Function.update_self]
      exact ⟨spec, rfl, by rw [hkey, hr', hhash]⟩
    · rw [Function.update_of_ne heq]
      exact ⟨r', hr', hhash⟩
  indexed a r' hr' := by
    by_cases heq : a = addr
    · rw [heq, Function.update_self, some.injEq] at hr'
      rw [heq, ← hr', hkey]
      exact h.indexed addr r hr
    · rw [Function.update_of_ne heq] at hr'
      exact h.indexed a r' hr'
  nodup := h.nodup

theorem Backed.rehashes (h : Backed hasher arena m)
    (hashOf : Nat → UInt64) (hhash : ∀ addr r, arena addr = some r → hashOf addr = hasher r.key) :
    Index.Rehashes memoryMode m fun addr _ => hashOf addr := by
  intro e he
  obtain ⟨r, hr, heq⟩ := h.records e he
  exact (hhash e.2 r hr).trans heq

theorem hashAt_of_arena (h : s.arena addr = some r) : s.hashAt hasher addr = hasher r.key := by
  rw [hashAt, h]
  rfl

section
variable (h : s.Valid hasher layout)
include h

/-- A rebuild keeps the records, and the groups or twice the groups. -/
theorem Valid.grow (hgrow : s.grow hasher = some s') :
    (∃ layout', s'.Valid hasher layout') ∧ s'.arena = s.arena ∧ s'.index.needsGrow = false ∧
      s'.index.rebuilds = s.index.rebuilds + 1 ∧
      (s'.index.capacity = s.index.capacity ∨ s'.index.capacity = s.index.capacity * 2) := by
  obtain ⟨t, layout', ht, hrep, hentries, hroom, hrebuilds, hcap⟩ :=
    @Index.Rep.grow_spec _ _ _ _ (fun addr _ => s.hashAt hasher addr) h.rep
      (h.backed.rehashes _ fun addr r hr => hashAt_of_arena hr)
  rw [Records.grow, ht, bind_eq_bind, bind_some] at hgrow
  split at hgrow
  next hfits =>
    rw [← some.inj hgrow]
    exact ⟨⟨layout', hrep, by rw [hentries]; exact h.backed, hfits⟩, rfl, hroom, hrebuilds, hcap⟩
  · simp at hgrow

theorem Valid.insert (hroom : s.index.needsGrow = false) {addr : Nat} (hfree : s.arena addr = none) (r : Record Key) :
    ∃ t pos, s.index.insert (hasher r.key) addr = some t ∧ layout[pos]? = some none ∧
      Valid hasher ⟨t, Function.update s.arena addr (some r)⟩ (layout.set pos (some (hasher r.key, addr))) ∧
      t.capacity = s.index.capacity ∧ t.rebuilds = s.index.rebuilds := by
  obtain ⟨t, pos, hinsert, hpos, hrep, hcap, hrebuilds, -⟩ := h.rep.insert_spec (hasher r.key) addr (Index.needsGrow_eq_false.mp hroom)
  have hset := @entries_set _ _ _ _ (some (hasher r.key, addr)) hpos
  rw [toList_none, Multiset.coe_nil, zero_add, toList_some, Multiset.coe_singleton, Multiset.singleton_add] at hset
  refine ⟨t, pos, hinsert, hpos, ⟨hrep, ?_, by rw [hcap]; exact h.fits⟩, hcap, hrebuilds⟩
  rw [hset]
  exact h.backed.insert hfree r

theorem Valid.replace {old new : Nat} {r spec : Record Key} (hold : s.arena old = some r)
    (hfree : s.arena new = none) (hkey : spec.key = r.key) :
    ∃ t pos, s.index.replace (hasher spec.key) old new = some t ∧ layout[pos]? = some (some (hasher spec.key, old)) ∧
      Valid hasher ⟨t, Function.update (Function.update s.arena new (some spec)) old none⟩
        (layout.set pos (some (hasher spec.key, new))) ∧
      t.capacity = s.index.capacity ∧ t.rebuilds = s.index.rebuilds := by
  rw [hkey]
  have hne : new ≠ old := by
    intro heq
    rw [heq, hold] at hfree
    simp at hfree
  obtain ⟨t, pos, hreplace, hpos, hrep, hcap, hrebuilds⟩ :=
    @Index.Rep.replace_spec _ _ _ _ _ _ h.rep old new (h.backed.exact hold) (h.backed.indexed old r hold)
  refine ⟨t, pos, hreplace, hpos, ⟨hrep, ?_, by rw [hcap]; exact h.fits⟩, hcap, hrebuilds⟩
  rw [Index.entries_replace hpos]
  have hfree' : Function.update s.arena old none new = none := by
    rw [Function.update_of_ne hne]
    exact hfree
  have hmoved := (h.backed.erase hold).insert hfree' spec
  rw [hkey, Function.update_comm hne.symm] at hmoved
  exact hmoved

variable {addr : Nat}

theorem Valid.remove {r : Record Key} (hr : s.arena addr = some r) :
    ∃ t pos, s.removeRecord hasher addr = some ⟨t, Function.update s.arena addr none⟩ ∧
      layout[pos]? = some (some (hasher r.key, addr)) ∧
      Valid hasher ⟨t, Function.update s.arena addr none⟩ (layout.set pos none) ∧
      t.capacity = s.index.capacity ∧ t.rebuilds = s.index.rebuilds := by
  obtain ⟨hpresent, hremoved⟩ := h.rep.remove_spec (h.backed.exact hr)
  cases hremove : s.index.remove (hasher r.key) addr with
  | none => exact absurd (h.backed.indexed addr r hr) (hpresent.mp hremove)
  | some t =>
    obtain ⟨pos, hpos, hrep, hcap, hrebuilds⟩ := hremoved t hremove
    refine ⟨t, pos, ?_, hpos, ⟨hrep, ?_, by rw [hcap]; exact h.fits⟩, hcap, hrebuilds⟩
    · rw [removeRecord, hr, bind_eq_bind, bind_some, hremove]
      rfl
    · rw [Index.entries_erase hpos]
      exact h.backed.erase hr

theorem Valid.rewrite {r spec : Record Key} (hr : s.arena addr = some r)
    (hkey : spec.key = r.key) : Valid hasher { s with arena := Function.update s.arena addr (some spec) } layout :=
  ⟨h.rep, h.backed.rewrite hr hkey, h.fits⟩

theorem Valid.find_some [DecidableEq Key] {key : Key} (hfind : s.find hasher key = some addr) :
    ∃ r, s.arena addr = some r ∧ r.key = key := by
  obtain ⟨-, -, -, -, hverify⟩ := h.rep.find_some hfind
  rw [Option.any_eq_true] at hverify
  obtain ⟨r, hr, hkey⟩ := hverify
  exact ⟨r, hr, of_decide_eq_true hkey⟩

theorem Valid.find_none [DecidableEq Key] {key : Key} (hfind : s.find hasher key = none)
    {r : Record Key} (hr : s.arena addr = some r) : r.key ≠ key := by
  intro hkey
  refine h.rep.find_ne_none (h.backed.indexed addr r hr) ?_ (by rw [hkey]; exact hfind)
  rw [hr]
  exact decide_eq_true hkey

end

/-- A write of a record, over the one found under its key or at a free address. -/
structure Writes [DecidableEq Key] (hasher : Key → UInt64) (s : Records Key) (spec : Record Key) (s' : Records Key)
    (written : Option Nat) : Prop where
  target : ∃ resized target, (∀ addr, target = some addr → s.arena addr = none) ∧
    s.writeRecordAt hasher (s.find hasher spec.key) spec resized target = some (s', written)

inductive Step [DecidableEq Key] (hasher : Key → UInt64) : Records Key → Records Key → Prop where
  | write {s s' : Records Key} {spec : Record Key} {written : Option Nat} (h : s.Writes hasher spec s' written) : Step hasher s s'
  | remove {s s' : Records Key} (addr : Nat) (h : s.removeRecord hasher addr = some s') : Step hasher s s'
  | grow {s s' : Records Key} (h : s.grow hasher = some s') : Step hasher s s'

/-- What a write does: nothing, or one record placed at the slot of its key or at a free one,
perhaps after a rebuild. -/
inductive Written (hasher : Key → UInt64) (s : Records Key) (layout : Layout Nat) (spec : Record Key) :
    Records Key → Layout Nat → Option Nat → Prop where
  | refused : Written hasher s layout spec s layout none
  | inPlace {addr : Nat} {r : Record Key} (hr : s.arena addr = some r) (hkey : r.key = spec.key) :
      Written hasher s layout spec { s with arena := Function.update s.arena addr (some spec) } layout (some addr)
  | moved {t : Index memoryMode Nat} {old new pos : Nat} {r : Record Key} (hr : s.arena old = some r) (hkey : r.key = spec.key)
      (hfree : s.arena new = none) (hpos : layout[pos]? = some (some (hasher spec.key, old)))
      (hcap : t.capacity = s.index.capacity) (hrebuilds : t.rebuilds = s.index.rebuilds) :
      Written hasher s layout spec ⟨t, Function.update (Function.update s.arena new (some spec)) old none⟩
        (layout.set pos (some (hasher spec.key, new))) (some new)
  | entered {t : Index memoryMode Nat} {new pos : Nat} (habsent : ∀ addr r, s.arena addr = some r → r.key ≠ spec.key)
      (hfree : s.arena new = none) (hpos : layout[pos]? = some none)
      (hcap : t.capacity = s.index.capacity) (hrebuilds : t.rebuilds = s.index.rebuilds) :
      Written hasher s layout spec ⟨t, Function.update s.arena new (some spec)⟩
        (layout.set pos (some (hasher spec.key, new))) (some new)

/-- A store, or a rebuild of it. -/
def Rebuilt (s s' : Records Key) : Prop :=
  s'.arena = s.arena ∧ s'.index.rebuilds = s.index.rebuilds + 1 ∧
    (s'.index.capacity = s.index.capacity ∨ s'.index.capacity = s.index.capacity * 2)

theorem Valid.insertRecord (h : s.Valid hasher layout) {target written : Option Nat}
    (hroom : s.index.needsGrow = false) (hfree : ∀ addr, target = some addr → s.arena addr = none)
    (habsent : ∀ addr r, s.arena addr = some r → r.key ≠ spec.key)
    (hwrite : s.insertRecord hasher spec target = some (s', written)) :
    ∃ layout', s'.Valid hasher layout' ∧ Written hasher s layout spec s' layout' written := by
  cases target with
  | none =>
    cases hwrite
    exact ⟨layout, h, .refused⟩
  | some new =>
    obtain ⟨t, pos, hinsert, hpos, hvalid, hcap, hrebuilds⟩ := h.insert hroom (hfree new rfl) spec
    rw [Records.insertRecord, hinsert] at hwrite
    cases hwrite
    exact ⟨_, hvalid, .entered habsent (hfree new rfl) hpos hcap hrebuilds⟩

theorem Valid.write [DecidableEq Key] (h : s.Valid hasher layout) {spec : Record Key} {written : Option Nat}
    (hwrites : s.Writes hasher spec s' written) :
    (∃ layout', s'.Valid hasher layout' ∧ Written hasher s layout spec s' layout' written) ∨
      ∃ s₁ layout₁ layout', Rebuilt s s₁ ∧ s₁.Valid hasher layout₁ ∧ s'.Valid hasher layout' ∧
        Written hasher s₁ layout₁ spec s' layout' written := by
  obtain ⟨resized, target, hfree, hwrite⟩ := hwrites.target
  cases hfind : s.find hasher spec.key with
  | some addr =>
    left
    obtain ⟨r, hr, hkey⟩ := h.find_some hfind
    rw [hfind] at hwrite
    simp only [writeRecordAt] at hwrite
    split at hwrite
    · cases hwrite
      exact ⟨layout, h.rewrite hr hkey.symm, .inPlace hr hkey⟩
    cases target with
    | none =>
      cases hwrite
      exact ⟨layout, h, .refused⟩
    | some new =>
      obtain ⟨t, pos, hreplace, hpos, hvalid, hcap, hrebuilds⟩ := h.replace hr (hfree new rfl) hkey.symm
      rw [moveRecord, hreplace] at hwrite
      cases hwrite
      exact ⟨_, hvalid, .moved hr hkey (hfree new rfl) hpos hcap hrebuilds⟩
  | none =>
    rw [hfind] at hwrite
    simp only [writeRecordAt] at hwrite
    have habsent : ∀ addr r, s.arena addr = some r → r.key ≠ spec.key := fun addr r hr => h.find_none hfind hr
    by_cases hneeds : s.index.needsGrow = true
    · right
      rw [if_pos hneeds] at hwrite
      obtain ⟨s₁, hgrow, hwrite⟩ := bind_eq_some_iff.mp hwrite
      obtain ⟨⟨layout₁, h₁⟩, harena, hroom, hrebuilds, hcap⟩ := h.grow hgrow
      rw [← harena] at hfree habsent
      obtain ⟨layout', h', hwritten⟩ := h₁.insertRecord hroom hfree habsent hwrite
      exact ⟨s₁, layout₁, layout', ⟨harena, hrebuilds, hcap⟩, h₁, h', hwritten⟩
    · left
      rw [if_neg hneeds] at hwrite
      exact h.insertRecord (Bool.not_eq_true _ ▸ hneeds) hfree habsent hwrite

inductive Reachable [DecidableEq Key] (hasher : Key → UInt64) : Records Key → Prop where
  | new (keys : Nat) (hfits : (new keys : Records Key).index.capacity < usizeLimit) : Reachable hasher (new keys)
  | step {s s' : Records Key} (h : Reachable hasher s) (hstep : Step hasher s s') : Reachable hasher s'

theorem Written.capacity {layout' : Layout Nat} {written : Option Nat}
    (h : Written hasher s layout spec s' layout' written) : s'.index.capacity = s.index.capacity := by
  cases h with
  | refused | inPlace _ _ => rfl
  | moved _ _ _ _ hcap _ => exact hcap
  | entered _ _ _ hcap _ => exact hcap

/-- A mutation keeps the store valid, and its size or twice its size. -/
theorem Valid.step [DecidableEq Key] (h : s.Valid hasher layout) (hstep : Step hasher s s') :
    (∃ layout', s'.Valid hasher layout') ∧
      (s'.index.capacity = s.index.capacity ∨ s'.index.capacity = s.index.capacity * 2) := by
  cases hstep with
  | write hwrites =>
    rcases h.write hwrites with ⟨layout', h', hwritten⟩ | ⟨s₁, layout₁, layout', hrebuilt, h₁, h', hwritten⟩
    · exact ⟨⟨layout', h'⟩, .inl hwritten.capacity⟩
    · refine ⟨⟨layout', h'⟩, ?_⟩
      rw [hwritten.capacity]
      exact hrebuilt.2.2
  | remove addr hremove =>
    cases hr : s.arena addr with
    | none =>
      rw [removeRecord, hr] at hremove
      simp at hremove
    | some r =>
      obtain ⟨t, pos, hremoved, -, hvalid, hcap, -⟩ := h.remove hr
      rw [hremoved, some.injEq] at hremove
      rw [← hremove]
      exact ⟨⟨_, hvalid⟩, .inl hcap⟩
  | grow hgrow =>
    obtain ⟨hvalid, -, -, -, hcap⟩ := h.grow hgrow
    exact ⟨hvalid, hcap⟩

theorem new_valid (keys : Nat) (hfits : (new keys : Records Key).index.capacity < usizeLimit) :
    ∃ layout, (new keys : Records Key).Valid hasher layout := by
  obtain ⟨layout, hrep, hentries⟩ := @Index.withCapacity_rep memoryMode Nat keys
  refine ⟨layout, hrep, ⟨fun e he => ?_, fun addr r hr => absurd hr (by simp [new]), ?_⟩, hfits⟩
  · rw [hentries] at he
    exact absurd he (Multiset.notMem_zero e)
  · rw [hentries]
    exact Multiset.nodup_zero

theorem Reachable.valid [DecidableEq Key] (h : Reachable hasher s) : ∃ layout, s.Valid hasher layout := by
  induction h with
  | new keys hfits => exact new_valid keys hfits
  | step _ hstep ih =>
    obtain ⟨layout, hvalid⟩ := ih
    exact (hvalid.step hstep).1

/-- A write of a key at a free address. -/
def put (s : Records Nat) (key addr : Nat) : Option (Records Nat) :=
  (s.writeRecordAt Nat.toUInt64 (s.find Nat.toUInt64 key) ⟨key, [1], none, nofun⟩ false (some addr)).map Prod.fst

theorem put_step {s s' : Records Nat} (key addr : Nat) (hfree : s.arena addr = none) (hput : s.put key addr = some s') :
    Step Nat.toUInt64 s s' := by
  obtain ⟨⟨s₁, written⟩, hwrite, rfl⟩ := map_eq_some_iff.mp hput
  refine @Step.write _ _ _ _ _ ⟨key, [1], none, nofun⟩ written ⟨false, some addr, fun a ha => ?_, hwrite⟩
  rw [← some.inj ha]
  exact hfree

def single : Records Nat := ((new 20).put 5 0).get (by decide +kernel)

/-- Two records at home in the two groups of their table. -/
def pair : Records Nat := (single.put 6 1).get (by decide +kernel)

theorem pair_reachable : Reachable Nat.toUInt64 pair := by
  have hsingle : Step Nat.toUInt64 (new 20) single := put_step 5 0 (by decide +kernel) (some_get (by decide +kernel)).symm
  have hpair : Step Nat.toUInt64 single pair := put_step 6 1 (by decide +kernel) (some_get (by decide +kernel)).symm
  exact .step (.step (.new 20 (by decide +kernel)) hsingle) hpair

end Records

end InfinityDB
