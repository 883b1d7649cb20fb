import InfinityDB.Table.Refinement

/-!
# Bounded probes and alias groups

A bounded probe offers the fragment matches of a hash to a callback, group by group along the probe
chain, and stops at a budget of groups. Where it comes to the end of the chain, it has offered every
entry of the hash once. An alias view is built on such a probe: it is complete, or it is not given out.
-/

namespace InfinityDB

open Lib List Option

/-- How a bounded probe ended; `groups` counts the control groups it loaded. -/
inductive ProbeEnd where
  | chainEnd (groups : Nat)
  | groupBudget
  | stopped (groups : Nat)
deriving DecidableEq, Repr

/-- One address after another for a callback, until it breaks. -/
def offerAll {σ Addr : Type} (visit : σ → Addr → σ × Bool) : List Addr → σ → σ × Bool
  | [], s => (s, false)
  | addr :: rest, s =>
    match visit s addr with
    | (s, true) => (s, true)
    | (s, false) => offerAll visit rest s

namespace Index
variable {mode : SlotMode} {Addr σ : Type}

/-- The addresses of a group that pass tag, fingerprint and sidecar, in slot order. -/
def fragmentsIn (t : Index mode Addr) (hash : UInt64) (group : Nat) : List Addr :=
  (positions group).filterMap fun pos => (t.slots[pos]?).bind (IndexSlot.fragment hash)

/-- The loop of the probe, which has no more turns than there are groups. -/
def probeLoop (t : Index mode Addr) (hash : UInt64) (groupsMax : Nat) (visit : σ → Addr → σ × Bool) :
    Nat → Nat → Nat → Nat → σ → Option (ProbeEnd × σ)
  | 0, _, _, _, _ => none
  | turns + 1, group, stride, groups, s =>
    if groupsMax ≤ groups then some (.groupBudget, s)
    else
      match offerAll visit (t.fragmentsIn hash group) s with
      | (s, true) => some (.stopped (groups + 1), s)
      | (s, false) =>
        -- an empty slot ends the chain, and so does the last group
        if t.hasEmpty group then some (.chainEnd (groups + 1), s)
        else if t.groupCount - 1 < stride + 1 then some (.chainEnd (groups + 1), s)
        else probeLoop t hash groupsMax visit turns ((group + (stride + 1)) % t.groupCount) (stride + 1) (groups + 1) s

/-- Offer the fragment matches of a hash in probe order. -/
def probeExactBounded (t : Index mode Addr) (hash : UInt64) (groupsMax : Nat) (visit : σ → Addr → σ × Bool) (s : σ) :
    Option (ProbeEnd × σ) :=
  t.probeLoop hash groupsMax visit t.groupCount (hash.toNat % t.groupCount) 0 0 s

end Index

def aliasWalkGroupsMax : Nat := 32

def aliasRehashMax : Nat := 16

def aliasGroupMax : Nat := 8

inductive AliasLimit where
  | groups
  | rehashes
  | members
deriving DecidableEq, Repr

/-- The members of an alias group, without those the caller left out. -/
structure AliasView (Addr : Type) where
  pkRef : UInt64
  members : List Addr
deriving DecidableEq

inductive AliasWalk (Addr : Type) where
  | complete (view : AliasView Addr)
  | over (limit : AliasLimit)
deriving DecidableEq

structure AliasTally where
  groups : Nat
  fetches : Nat

/-- What the inspection of a fragment match found. -/
inductive Candidate where
  | excluded
  | aliased
  | neighbour
deriving DecidableEq, Repr

/-- What the callback of an enumeration keeps. -/
structure AliasScan (Addr : Type) where
  members : List Addr
  charged : Nat
  fetches : Nat
  stoppedOn : AliasLimit

/-- One candidate: a fetch is charged before it is made. -/
def AliasScan.visit {Addr : Type} (skip : Addr → Bool) (inspect : Addr → Candidate) (s : AliasScan Addr) (addr : Addr) :
    AliasScan Addr × Bool :=
  if skip addr then (s, false)
  else if s.charged = aliasRehashMax then ({ s with stoppedOn := .rehashes }, true)
  else
    let s := { s with charged := s.charged + 1, fetches := s.fetches + 1 }
    match inspect addr with
    | .excluded => (s, false)
    | .neighbour => (s, false)
    | .aliased =>
      if s.members.length = aliasGroupMax then ({ s with stoppedOn := .members }, true)
      else ({ s with members := s.members ++ [addr] }, false)

/-- The records of a hash in a memory table. -/
def Index.aliasView {Addr : Type} (t : Index memoryMode Addr) (hash : UInt64) (skip : Addr → Bool)
    (inspect : Addr → Candidate) : Option (AliasWalk Addr × AliasTally) := do
  match ← t.probeExactBounded hash aliasWalkGroupsMax (AliasScan.visit skip inspect) ⟨[], 0, 0, .rehashes⟩ with
  | (.chainEnd groups, s) => some (.complete ⟨hash, s.members⟩, ⟨groups, s.fetches⟩)
  | (.groupBudget, s) => some (.over .groups, ⟨aliasWalkGroupsMax, s.fetches⟩)
  | (.stopped groups, s) => some (.over s.stoppedOn, ⟨groups, s.fetches⟩)

section Walk
variable {mode : SlotMode} {Addr σ : Type} {visit : σ → Addr → σ × Bool}

private theorem offerAll_append {first rest : List Addr} {s s' : σ} (h : offerAll visit first s = (s', false)) :
    offerAll visit (first ++ rest) s = offerAll visit rest s' := by
  induction first generalizing s with
  | nil => rw [← (Prod.mk.inj h).1, nil_append]
  | cons addr first ih =>
    rw [offerAll] at h
    rw [cons_append, offerAll]
    cases hv : visit s addr with
    | mk s₁ broke =>
      rw [hv] at h
      cases broke with
      | true => simp at h
      | false => exact ih h

/-- What a probe loaded and offered, and what its end says of that: the groups are those of the chain
from the front, the addresses their fragment matches in order. -/
structure Walked (t : Index mode Addr) (hash : UInt64) (visit : σ → Addr → σ × Bool) (groupsMax : Nat) (chain loaded : List Nat)
    (s : σ) (ending : ProbeEnd) (groups : Nat) (s' : σ) : Prop where
  order : loaded <+: chain
  budget : loaded.length ≤ groupsMax
  offers : offerAll visit (loaded.flatMap (t.fragmentsIn hash)) s = (s', decide (ending = .stopped (groups + loaded.length)))
  ends : ending = .chainEnd (groups + loaded.length) ∧ loaded = chain ∨
    ending = .groupBudget ∧ loaded.length = groupsMax ∧ loaded ≠ chain ∨ ending = .stopped (groups + loaded.length)

namespace Index
variable {t : Index mode Addr} {hash : UInt64} {groupsMax : Nat}

theorem probeLoop_spec {turns : Nat} (group stride groups : Nat) (s : σ) (hpos : 0 < turns) (hturns : turns + stride = t.groupCount) :
    ∃ ending s' loaded, t.probeLoop hash groupsMax visit turns group stride groups s = some (ending, s') ∧
      Walked t hash visit (groupsMax - groups) (takeThrough t.hasEmpty (probeFrom t.groupCount turns group stride)) loaded
        s ending groups s' := by
  induction turns generalizing group stride groups s with
  | zero => exact absurd hpos (Nat.lt_irrefl 0)
  | succ turns ih =>
    rw [probeLoop, probeFrom, takeThrough]
    split
    · exact ⟨_, _, [], rfl, nil_prefix, zero_le, by simp [offerAll], .inr (.inl ⟨rfl, by simp; omega, by simp⟩)⟩
    rename_i hroom
    have hbudget : [group].length ≤ groupsMax - groups := by
      rw [length_singleton]
      omega
    cases hoffer : offerAll visit (t.fragmentsIn hash group) s with
    | mk s₁ broke =>
      cases broke with
      | true =>
        refine ⟨_, s₁, [group], rfl, ?_, hbudget, by simp [hoffer], .inr (.inr rfl)⟩
        exact cons_prefix_cons.mpr ⟨rfl, nil_prefix⟩
      | false =>
        dsimp only
        by_cases hempty : t.hasEmpty group
        · rw [if_pos hempty, if_pos hempty]
          exact ⟨_, s₁, [group], rfl, prefix_refl _, hbudget, by simp [hoffer], .inl ⟨rfl, rfl⟩⟩
        rw [if_neg hempty, if_neg hempty]
        by_cases hlast : t.groupCount - 1 < stride + 1
        · obtain rfl : turns = 0 := by omega
          rw [if_pos hlast]
          exact ⟨_, s₁, [group], rfl, prefix_refl _, hbudget, by simp [hoffer], .inl ⟨rfl, rfl⟩⟩
        rw [if_neg hlast]
        obtain ⟨ending, s', loaded, hloop, horder, hlen, hoffers, hends⟩ :=
          ih ((group + (stride + 1)) % t.groupCount) (stride + 1) (groups + 1) s₁ (by omega) (by omega)
        have hcount : groups + 1 + loaded.length = groups + (group :: loaded).length := by
          rw [length_cons]
          omega
        rw [hcount] at hoffers hends
        refine ⟨ending, s', group :: loaded, hloop, cons_prefix_cons.mpr ⟨rfl, horder⟩, ?_, ?_, ?_⟩
        · rw [length_cons]
          omega
        · rw [flatMap_cons, offerAll_append hoffer]
          exact hoffers
        · rcases hends with ⟨he, hall⟩ | ⟨he, hfull, hmore⟩ | he
          · exact .inl ⟨he, by rw [hall]⟩
          · refine .inr (.inl ⟨he, ?_, fun hall => hmore (List.cons.inj hall).2⟩)
            rw [length_cons]
            omega
          · exact .inr (.inr he)

variable {layout : Layout Addr}

theorem Rep.groupCount_pos (h : t.Rep layout) : 0 < t.groupCount := by
  obtain ⟨k, hk⟩ := h.groups
  rw [groupCount_eq hk]
  positivity

/-- A probe of a table that has a layout. -/
theorem Rep.probeExactBounded_spec (h : t.Rep layout) (hash : UInt64) (groupsMax : Nat)
    (visit : σ → Addr → σ × Bool) (s : σ) :
    ∃ ending s' loaded, t.probeExactBounded hash groupsMax visit s = some (ending, s') ∧
      Walked t hash visit groupsMax (t.chain hash.toNat) loaded s ending 0 s' :=
  probeLoop_spec _ 0 0 s h.groupCount_pos rfl

/-- The entry of a slot passes for a hash. -/
def passes (mode : SlotMode) (hash : UInt64) (e : UInt64 × Addr) : Bool :=
  decide (h2 e.1 = h2 hash ∧ fp15 e.1 = fp15 hash ∧ mode.extMatches (mode.extSet e.1) hash = true)

private theorem passes_self (addr : Addr) : passes mode hash (hash, addr) = true :=
  decide_eq_true ⟨rfl, rfl, mode.matches_set hash⟩

/-- The entries that the positions of a chain stand for and that pass. -/
def offered (t : Index mode Addr) (layout : Layout Addr) (hash : UInt64) : List (UInt64 × Addr) :=
  ((t.chain hash.toNat).flatMap positions).filterMap fun pos => (layout[pos]?).join.filter (passes mode hash)

theorem Rep.fragment_eq (h : t.Rep layout) (hash : UInt64) (pos : Nat) :
    (t.slots[pos]?).bind (IndexSlot.fragment hash) = ((layout[pos]?).join.filter (passes mode hash)).map Prod.snd := by
  cases hslot : t.slots[pos]? with
  | none =>
    have hnone : layout[pos]? = none := by
      rw [List.getElem?_eq_none_iff, h.length]
      exact List.getElem?_eq_none_iff.mp hslot
    rw [hnone]
    rfl
  | some slot =>
    obtain ⟨entry, hentry, hkeeps⟩ := h.entry hslot
    rw [hentry, bind_some, join_some]
    cases entry with
    | none =>
      cases slot with
      | live _ _ _ _ => simp [Keeps, IndexSlot.special] at hkeeps
      | _ => rfl
    | some e =>
      rw [hkeeps, IndexSlot.of, IndexSlot.fragment, filter_some, passes]
      by_cases hpass : h2 e.1 = h2 hash ∧ fp15 e.1 = fp15 hash ∧ mode.extMatches (mode.extSet e.1) hash = true
      · rw [if_pos hpass, if_pos (decide_eq_true hpass)]
        rfl
      · rw [if_neg hpass, if_neg (by simpa using hpass)]
        rfl

theorem Rep.fragments_eq (h : t.Rep layout) (hash : UInt64) :
    (t.chain hash.toNat).flatMap (t.fragmentsIn hash) = (t.offered layout hash).map Prod.snd := by
  rw [offered, map_filterMap, filterMap_flatMap]
  refine congrArg (List.flatMap · (t.chain hash.toNat)) (funext fun group => ?_)
  exact congrArg (List.filterMap · (positions group)) (funext fun pos => h.fragment_eq hash pos)

theorem Rep.positions_nodup (h : t.Rep layout) (hash : UInt64) : ((t.chain hash.toNat).flatMap positions).Nodup := by
  obtain ⟨k, hk⟩ := h.groups
  have hgroups : (t.chain hash.toNat).Nodup := by
    refine List.Nodup.sublist (takeThrough_isPrefix _ _).sublist ?_
    rw [probes, groupCount_eq hk]
    exact nodup_probeSeq k _
  rw [nodup_flatMap]
  refine ⟨fun group _ => ?_, hgroups.imp fun hne => ?_⟩
  · exact nodup_range.map fun i j hij => Nat.add_left_cancel hij
  · intro pos hpos hpos'
    exact hne ((mem_positions.mp hpos).symm.trans (mem_positions.mp hpos'))

private theorem filterMap_range (layout : Layout Addr) :
    (List.range layout.length).filterMap (fun pos => (layout[pos]?).join) = layout.reduceOption := by
  induction layout with
  | nil => rfl
  | cons entry layout ih =>
    rw [length_cons, range_succ_eq_map, filterMap_cons, filterMap_map]
    cases entry with
    | none => exact ih
    | some e =>
      rw [reduceOption_cons_of_some, ← ih]
      rfl

/-- Of two lists without repetition it is enough that they agree where the function is defined. -/
private theorem perm_filterMap {α β : Type} {g : α → Option β} {l l' : List α} (hl : l.Nodup) (hl' : l'.Nodup)
    (h : ∀ x, (g x).isSome = true → (x ∈ l ↔ x ∈ l')) : (l.filterMap g).Perm (l'.filterMap g) := by
  have hdefined (l : List α) : l.filterMap g = (l.filter fun x => (g x).isSome).filterMap g := by
    rw [filterMap_filter]
    refine congrArg (List.filterMap · l) (funext fun x => ?_)
    cases g x <;> rfl
  rw [hdefined l, hdefined l']
  refine List.Perm.filterMap g ((perm_ext_iff_of_nodup (hl.filter _) (hl'.filter _)).mpr fun x => ?_)
  rw [mem_filter, mem_filter]
  exact and_congr_left (h x)

/-- Each offer is of an entry of its own, and no entry of the hash is left out. -/
theorem Rep.offered_spec (h : t.Rep layout) (hash : UInt64) :
    (t.offered layout hash : Multiset (UInt64 × Addr)) ≤ entries layout ∧
      (t.offered layout hash : Multiset (UInt64 × Addr)).filter (·.1 = hash) = (entries layout).filter (·.1 = hash) := by
  have hps := h.positions_nodup hash
  rw [entries, ← filterMap_range, offered]
  have hlt {P : UInt64 × Addr → Bool} {pos : Nat} (hsome : ((layout[pos]?).join.filter P).isSome = true) : pos < layout.length := by
    by_contra hge
    rw [getElem?_eq_none (Nat.not_lt.mp hge)] at hsome
    simp at hsome
  constructor
  · -- the positions that stand for an entry are among those of the layout
    let qs := (List.range layout.length).filter (· ∈ (t.chain hash.toNat).flatMap positions)
    have hperm := perm_filterMap (g := fun pos => (layout[pos]?).join.filter (passes mode hash)) hps
      (nodup_range.filter _ : qs.Nodup) fun pos hsome => by simp [hlt hsome]
    have hsub : (qs.filterMap fun pos => (layout[pos]?).join.filter (passes mode hash)).Sublist
        (((List.range layout.length).filterMap fun pos => (layout[pos]?).join).filter (passes mode hash)) := by
      rw [filter_filterMap]
      exact filter_sublist.filterMap _
    exact Multiset.coe_le.mpr (hperm.subperm.trans (hsub.trans filter_sublist).subperm)
  · rw [Multiset.filter_coe, Multiset.filter_coe, Multiset.coe_eq_coe, filter_filterMap, filter_filterMap]
    have hpass : (fun pos : Nat => ((layout[pos]?).join.filter (passes mode hash)).filter (fun e => decide (e.1 = hash))) =
        fun pos => (layout[pos]?).join.filter (fun e => decide (e.1 = hash)) := by
      funext pos
      cases (layout[pos]?).join with
      | none => rfl
      | some e =>
        by_cases he : e.1 = hash
        · obtain ⟨_, addr⟩ := e
          obtain rfl : _ = hash := he
          rw [filter_some, if_pos (passes_self addr)]
        · rw [filter_some]
          split <;> simp [filter_some, he]
    rw [hpass]
    refine perm_filterMap hps nodup_range fun pos hsome => ⟨fun _ => mem_range.mpr (hlt hsome), fun _ => ?_⟩
    obtain ⟨e, he⟩ := isSome_iff_exists.mp hsome
    obtain ⟨hjoin, hhash⟩ := filter_eq_some_iff.mp he
    obtain ⟨_, addr⟩ := e
    obtain rfl : _ = hash := of_decide_eq_true hhash
    exact mem_flatMap_positions.mpr (h.chained pos _ (join_eq_some_iff.mp hjoin))

end Index

end Walk

section Alias
variable {Addr : Type} {skip : Addr → Bool} {inspect : Addr → Candidate}

/-- Whether an address is a member for the callbacks. -/
def isMember (skip : Addr → Bool) (inspect : Addr → Candidate) (addr : Addr) : Bool := !skip addr && inspect addr == .aliased

theorem AliasScan.visit_continue {s s' : AliasScan Addr} {addr : Addr} (h : s.visit skip inspect addr = (s', false)) :
    s'.members = s.members ++ [addr].filter (isMember skip inspect) := by
  unfold AliasScan.visit at h
  by_cases hskip : skip addr
  · rw [if_pos hskip] at h
    simp [← (Prod.mk.inj h).1, isMember, hskip]
  rw [if_neg hskip] at h
  split at h
  · simp at h
  cases hins : inspect addr with
  | excluded | neighbour =>
    rw [hins] at h
    simp [← (Prod.mk.inj h).1, isMember, hins]
  | aliased =>
    rw [hins] at h
    dsimp only at h
    split at h
    · simp at h
    · simp [← (Prod.mk.inj h).1, isMember, hins, hskip]

theorem AliasScan.offerAll_continue {addrs : List Addr} {s s' : AliasScan Addr}
    (h : offerAll (AliasScan.visit skip inspect) addrs s = (s', false)) :
    s'.members = s.members ++ addrs.filter (isMember skip inspect) := by
  induction addrs generalizing s with
  | nil => simp [← (Prod.mk.inj h).1]
  | cons addr addrs ih =>
    rw [offerAll] at h
    cases hv : s.visit skip inspect addr with
    | mk s₁ broke =>
      rw [hv] at h
      cases broke with
      | true => simp at h
      | false =>
        rw [ih h, AliasScan.visit_continue hv, append_assoc, ← filter_append]
        rfl

/-- An inspection tells what the record at an entry's address is. -/
def Inspects (m : Multiset (UInt64 × Addr)) (hash : UInt64) (excluded : Addr → Bool) (inspect : Addr → Candidate) : Prop :=
  ∀ e ∈ m, inspect e.2 = if excluded e.2 then .excluded else if e.1 = hash then .aliased else .neighbour

/-- The members among the offered entries are those of the hash that nobody left out. -/
theorem members_eq (skip : Addr → Bool) {m : Multiset (UInt64 × Addr)} {hash : UInt64} {excluded : Addr → Bool}
    (h : Inspects m hash excluded inspect) :
    (m.map Prod.snd).filter (isMember skip inspect ·) =
      ((m.filter (·.1 = hash)).map Prod.snd).filter fun addr => !skip addr && !excluded addr := by
  rw [Multiset.filter_map, Multiset.filter_map, Multiset.filter_filter]
  congr 1
  refine Multiset.filter_congr fun e he => ?_
  rw [Function.comp_apply, Function.comp_apply, isMember, h e he]
  by_cases hex : excluded e.2 <;> by_cases hhash : e.1 = hash <;> simp [hex, hhash]

end Alias

/-- A walk that comes to the end of the chain has offered every entry of the hash, and each entry at
most once. -/
def Enumerates {mode : SlotMode} {Addr σ : Type} (t : Index mode Addr) (m : Multiset (UInt64 × Addr)) (hash : UInt64)
    (visit : σ → Addr → σ × Bool) (s s' : σ) : Prop :=
  ∃ offers : List (UInt64 × Addr), (offers : Multiset (UInt64 × Addr)) ≤ m ∧
    (offers : Multiset (UInt64 × Addr)).filter (·.1 = hash) = m.filter (·.1 = hash) ∧
    offers.map Prod.snd = (t.chain hash.toNat).flatMap (t.fragmentsIn hash) ∧ offerAll visit (offers.map Prod.snd) s = (s', false)

section Ends
variable {mode : SlotMode} {Addr σ : Type} {t : Index mode Addr} {layout : Layout Addr} {hash : UInt64}
  {visit : σ → Addr → σ × Bool} {groupsMax groups : Nat} {loaded : List Nat} {s s' : σ} {ending : ProbeEnd}

theorem Walked.enumerates (h : Walked t hash visit groupsMax (t.chain hash.toNat) loaded s ending 0 s') (hrep : t.Rep layout)
    (hend : ending = .chainEnd groups) : Enumerates t (entries layout) hash visit s s' := by
  obtain ⟨hle, hall⟩ := hrep.offered_spec hash
  refine ⟨t.offered layout hash, hle, hall, (hrep.fragments_eq hash).symm, ?_⟩
  rw [← hrep.fragments_eq hash]
  have hoffers := h.offers
  subst hend
  rcases h.ends with ⟨-, rfl⟩ | ⟨he, -⟩ | he
  · simpa using hoffers
  · cases he
  · cases he

theorem Walked.within_budget (h : Walked t hash visit groupsMax (t.chain hash.toNat) loaded s ending 0 s')
    (hbudget : t.groupCount ≤ groupsMax) : ending ≠ .groupBudget := by
  rintro rfl
  rcases h.ends with ⟨he, -⟩ | ⟨-, hfull, hmore⟩ | he
  · cases he
  · refine hmore (h.order.eq_of_length_le ?_)
    have hchain := (takeThrough_isPrefix t.hasEmpty (t.probes hash.toNat)).length_le
    rw [Index.probes, probeSeq, probeFrom_length] at hchain
    rw [hfull]
    exact hchain.trans hbudget
  · cases he

end Ends

/-- Every probe of a reachable table returns: it feeds the callback the fragment matches of the groups it
loads, which begin the chain and are no more than the budget. At the end of the chain the enumeration is
complete, and a budget of all groups never runs out. A complete alias view is exactly the records of the
hash without those the callbacks name. -/
theorem bounded_probe_complete {mode : SlotMode} {Addr σ : Type} [DecidableEq Addr] {atLeast : Nat} {t : Index mode Addr}
    {m : Multiset (UInt64 × Addr)} (h : Index.Reaches atLeast t m) :
    (∀ (hash : UInt64) (groupsMax : Nat) (visit : σ → Addr → σ × Bool) (s : σ), ∃ ending s' loaded,
      t.probeExactBounded hash groupsMax visit s = some (ending, s') ∧
      Walked t hash visit groupsMax (t.chain hash.toNat) loaded s ending 0 s' ∧
      (∀ groups, ending = .chainEnd groups → Enumerates t m hash visit s s') ∧
      (t.groupCount ≤ groupsMax → ending ≠ .groupBudget)) ∧
    ∀ (tm : Index memoryMode Addr) (mm : Multiset (UInt64 × Addr)), Index.Reaches atLeast tm mm →
      ∀ (hash : UInt64) (skip excluded : Addr → Bool) (inspect : Addr → Candidate), Inspects mm hash excluded inspect →
        ∃ walk tally, tm.aliasView hash skip inspect = some (walk, tally) ∧
          ∀ view, walk = .complete view → view.pkRef = hash ∧ (view.members : Multiset Addr) =
            ((mm.filter (·.1 = hash)).map Prod.snd).filter fun addr => !skip addr && !excluded addr := by
  constructor
  · intro hash groupsMax visit s
    obtain ⟨layout, hrep, rfl⟩ := h.rep
    obtain ⟨ending, s', loaded, hrun, hwalk⟩ := hrep.probeExactBounded_spec hash groupsMax visit s
    exact ⟨ending, s', loaded, hrun, hwalk, fun groups he => hwalk.enumerates hrep he, hwalk.within_budget⟩
  · intro tm mm hm hash skip excluded inspect hins
    obtain ⟨layout, hrep, rfl⟩ := hm.rep
    obtain ⟨ending, s', loaded, hrun, hwalk⟩ := hrep.probeExactBounded_spec hash aliasWalkGroupsMax
      (AliasScan.visit skip inspect) ⟨[], 0, 0, .rehashes⟩
    cases ending with
    | chainEnd groups =>
      refine ⟨.complete ⟨hash, s'.members⟩, ⟨groups, s'.fetches⟩, by rw [Index.aliasView, hrun]; rfl, fun view hview => ?_⟩
      obtain ⟨offers, hle, hall, -, hoffer⟩ := hwalk.enumerates hrep rfl
      obtain rfl := (AliasWalk.complete.inj hview).symm
      have hmembers := members_eq skip fun e he => hins e (Multiset.mem_of_le hle he)
      rw [hall] at hmembers
      refine ⟨rfl, Eq.trans ?_ hmembers⟩
      rw [AliasScan.offerAll_continue hoffer, Multiset.map_coe, Multiset.filter_coe]
      simp
    | groupBudget => exact ⟨.over .groups, ⟨aliasWalkGroupsMax, s'.fetches⟩, by rw [Index.aliasView, hrun]; rfl, nofun⟩
    | stopped groups => exact ⟨.over s'.stoppedOn, ⟨groups, s'.fetches⟩, by rw [Index.aliasView, hrun]; rfl, nofun⟩

/-- Two records of one full hash and a neighbour with its fragments. -/
def aliases : List (UInt64 × Nat) := [(5, 9), (21, 10), (5, 11)]

theorem bounded_probe_complete_aliases : ∃ t tally, (Index.withCapacity 1 : Index memoryMode Nat).insertAll aliases = some t ∧
    t.aliasView 5 (fun _ => false) (fun addr => if addr = 10 then .neighbour else .aliased) = some (.complete ⟨5, [9, 11]⟩, tally) ∧
    (([9, 11] : List Nat) : Multiset Nat) =
      (((aliases : Multiset (UInt64 × Nat)).filter (·.1 = 5)).map Prod.snd).filter fun _ => true := by
  have hsome : ((Index.withCapacity 1 : Index memoryMode Nat).insertAll aliases).any (fun t =>
      (t.aliasView 5 (fun _ => false) fun addr => if addr = 10 then .neighbour else .aliased).any
        (·.1 = .complete ⟨5, [9, 11]⟩)) = true := by decide +kernel
  obtain ⟨t, hrun, hview⟩ := (Option.any_eq_true _ _).mp hsome
  obtain ⟨⟨walk, tally⟩, hview, hwalk⟩ := (Option.any_eq_true _ _).mp hview
  obtain rfl := of_decide_eq_true hwalk
  have hreach := Index.Reaches.withCapacity.insertAll hrun
  rw [add_zero] at hreach
  have hins : Inspects (aliases : Multiset (UInt64 × Nat)) 5 (fun _ => false)
      fun addr : Nat => if addr = 10 then .neighbour else .aliased := by
    intro e he
    fin_cases he <;> rfl
  obtain ⟨walk, tally', hview', hmembers⟩ :=
    (@bounded_probe_complete memoryMode Nat Unit _ 1 t _ hreach).2 t _ hreach 5 (fun _ => false) (fun _ => false) _ hins
  obtain ⟨rfl, rfl⟩ := Prod.mk.inj (some.inj (hview'.symm.trans hview))
  exact ⟨t, tally', hrun, hview, (hmembers _ rfl).2⟩

open Index in
/-- An address entered under two hashes of one tag, and removed under the second: the probe of the first
comes to the end of its chain without the entry that is left. -/
theorem probe_can_miss : ∃ t : Index memoryMode Nat,
    ((Index.withCapacity 1).insertAll [(lowHash, 7), (fragmentHash, 7)]).bind (remove · fragmentHash 7) = some t ∧
      t.probeExactBounded lowHash t.groupCount (fun s addr => (addr :: s, false)) [] = some (.chainEnd 1, []) := by
  have hsome : (((Index.withCapacity 1 : Index memoryMode Nat).insertAll [(lowHash, 7), (fragmentHash, 7)]).bind
      (remove · fragmentHash 7)).any (fun t =>
        t.probeExactBounded lowHash t.groupCount (fun s addr => (addr :: s, false)) [] = some (.chainEnd 1, [])) = true := by
    decide +kernel
  obtain ⟨t, hrun, hprobe⟩ := (Option.any_eq_true _ _).mp hsome
  exact ⟨t, hrun, of_decide_eq_true hprobe⟩

end InfinityDB
