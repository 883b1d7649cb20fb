import InfinityDB.Tiered.Resolve

/-!
# The identity recheck

A delete resolves its key, suspends, and looks the key up once more before it stages anything: if the
lookup does not end at the resolved address, it starts over. The resolver came to the address past
candidates it had read and excluded, but the recheck excludes nothing. It agrees with the resolver on a
cold record only if no other cold candidate comes first, whatever that record's key is; where one does,
nothing has moved and the loop goes round for ever.
-/

namespace InfinityDB.Tiered

open Lib

namespace TieredTable

/-- The loop of `delete_one` on a table that does not change, with the address every pass resolves and the
answers of the staging window and the replay register; `none` when it is still going round after that many
passes. -/
def deletePasses (s : TieredTable) (key : Bytes) (hash : UInt64) (target : Nat) (twins : List Nat) (fits inRegister : Bool) :
    Nat → Option Staged
  | 0 => none
  | passes + 1 =>
    match s.stageDelete key hash target twins fits inRegister with
    | .applied => some .applied
    | .overRegister => some .overRegister
    | .moved | .noRoom => s.deletePasses key hash target twins fits inRegister passes

/-- On the probe chain of the hash, the first slot with its fragments that leads to a cold record leads to
this one. -/
def FirstCold (s : TieredTable) (hash : UInt64) (addr : Nat) : Prop :=
  ∃ before pos after, (s.index.chain hash.toNat).flatMap positions = before ++ pos :: after ∧
    (s.index.slots[pos]?).bind (IndexSlot.candidate hash) = some addr ∧
    ∀ q ∈ before, ∀ other, (s.index.slots[q]?).bind (IndexSlot.candidate hash) = some other → s.resolve other ≠ .cold

variable {hashOf : Bytes → UInt64} {s : TieredTable} {key : Bytes} {addr : Nat} {trusted : Prop}
  {m : Multiset (UInt64 × Nat)}

theorem firstCold_iff {hash : UInt64} (hcold : s.resolve addr = .cold) :
    s.FirstCold hash addr ↔ s.index.find hash (fun a => s.resolve a = .cold ∧ a ∉ ([] : List Nat)) = some addr := by
  have hskip (pos : Nat) : ((s.index.slots[pos]?).bind (IndexSlot.candidate hash)).filter
      (fun a => decide (s.resolve a = .cold ∧ a ∉ ([] : List Nat))) = none ↔
      ∀ other, (s.index.slots[pos]?).bind (IndexSlot.candidate hash) = some other → s.resolve other ≠ .cold := by
    rw [Option.filter_eq_none_iff]
    simp
  rw [Index.find, List.findSome?_eq_some_iff, FirstCold]
  refine exists_congr fun before => exists_congr fun pos => exists_congr fun after => and_congr_right fun _ => ?_
  refine and_congr ?_ (forall_congr' fun q => imp_congr_right fun _ => (hskip q).symm)
  rw [Option.filter_eq_some_iff]
  simp [hcold]

/-- With the current record cold no lookup ends in memory, and the recheck ends at the first cold candidate. -/
theorem Inv.stillAt_iff (h : Inv hashOf trusted s m) (hcurrent : s.Current key addr) (hcold : s.resolve addr = .cold) :
    s.stillAt key (hashOf key) addr = true ↔ s.FirstCold (hashOf key) addr := by
  rw [firstCold_iff hcold, stillAt]
  cases hlookup : s.lookup key (hashOf key) [] with
  | ram found =>
    -- every record of the key is cold
    have hall := hcurrent.2.2.resolve_left (not_not.mpr hcold)
    obtain ⟨⟨hfound, hkey, -⟩, hram⟩ := h.lookup_ram hlookup
    exact absurd (hall found hfound hkey) hram
  | cold now =>
    rw [lookup] at hlookup
    split at hlookup
    · simp at hlookup
    split at hlookup
    next hfind => rw [hfind, TieredLookup.cold.inj hlookup, Option.some.injEq, decide_eq_true_eq]
    · simp at hlookup
  | miss => exact absurd (h.lookup_miss hlookup hcurrent.1 hcurrent.2.1) (by simp)

/-- No ticket names a cold winner, so what is left of the recheck passes. -/
theorem Inv.stageDelete_cold (h : Inv hashOf trusted s m) (hcold : s.resolve addr = .cold) (twins : List Nat) (inRegister : Bool) :
    s.stageDelete key (hashOf key) addr twins true inRegister =
      if s.stillAt key (hashOf key) addr then (if inRegister then .applied else .overRegister) else .moved := by
  have hwinner (t) (ht : t ∈ s.tickets) : t.winner ≠ addr := by
    have := (h.tickets t ht).2
    rw [h.cold_iff] at hcold
    omega
  have hnone : (s.tickets.any fun t => t.winner = addr ∧ t.cold ∉ twins.filter (s.containsPair (hashOf key))) = false := by
    rw [List.any_eq_false]
    intro t ht
    simp [hwinner t ht]
  rw [stageDelete]
  cases s.stillAt key (hashOf key) addr
  · rfl
  · simp only [Bool.not_true, Bool.false_eq_true, if_false, if_true, hnone]

theorem deletePasses_moved {hash : UInt64} {twins : List Nat} {fits inRegister : Bool}
    (hstill : s.stillAt key hash addr = false) (passes : Nat) :
    s.deletePasses key hash addr twins fits inRegister passes = none := by
  induction passes with
  | zero => rfl
  | succ passes ih =>
    rw [deletePasses, stageDelete, hstill]
    cases fits <;> exact ih

end TieredTable

open TieredTable in
/-- With the table unchanged since the key's record was resolved at a cold address, the recheck of a delete
and of a write accepts that address exactly if no other cold candidate of the hash comes first. Then one pass
deletes; otherwise no number of passes does. -/
theorem recheck_accepts_iff {hashOf : Bytes → UInt64} {blobs : Nat → Bytes} {s : TieredTable} {commands : List Command} {key : Bytes}
    {addr : Nat} (hreach : Reaches hashOf blobs (fun _ _ _ => True) s commands) (hcurrent : s.Current key addr)
    (hcold : s.resolve addr = .cold) :
    (s.reverify key (hashOf key) (some addr) = true ↔ s.FirstCold (hashOf key) addr) ∧
      (∀ twins inRegister, s.stageDelete key (hashOf key) addr twins true inRegister ≠ .moved ↔ s.FirstCold (hashOf key) addr) ∧
      (s.FirstCold (hashOf key) addr → ∀ twins, s.deletePasses key (hashOf key) addr twins true true 1 = some .applied) ∧
      (¬ s.FirstCold (hashOf key) addr → ∀ twins fits inRegister passes,
        s.deletePasses key (hashOf key) addr twins fits inRegister passes = none) := by
  obtain ⟨m, hinv⟩ := (hreach.ok False.elim).1
  have hstill := hinv.stillAt_iff hcurrent hcold
  refine ⟨hstill, ?_, ?_, ?_⟩
  · intro twins inRegister
    rw [hinv.stageDelete_cold hcold, ← hstill]
    cases s.stillAt key (hashOf key) addr <;> cases inRegister <;> simp
  · intro hfirst twins
    rw [deletePasses, hinv.stageDelete_cold hcold, hstill.mpr hfirst]
    rfl
  · intro hfirst twins fits inRegister passes
    rw [← hstill, Bool.not_eq_true] at hfirst
    exact deletePasses_moved hfirst passes

namespace Scenario

/-- The record of `b` is read, found to be of another key and excluded; then that of `a` is served. -/
private theorem served_demoted : Runs demoted [⟨[97], ⟨[20], 0, .done (.cold 10 [1] 0 10)⟩, demoted⟩] := by
  obtain ⟨-, -, hask, hskip, hback, hserve⟩ := turns
  have hdemoted := runs_demoted idle_nil (crossed_reaches (cold_reaches fun _ _ _ _ => trivial) idle_nil)
  have hother : Runs demoted [⟨[97], reading [] 20, demoted⟩] := polled (hdemoted.start [97] idle_nil) idle_nil trivial rfl hask
  have hexclude : Runs demoted [⟨[97], ⟨[20], 0, .attempt⟩, demoted⟩] := polled hother idle_nil trivial rfl hskip
  have hreading : Runs demoted [⟨[97], reading [20] 10, demoted⟩] := polled hexclude idle_nil trivial rfl hback
  exact polled hreading idle_nil trivial rfl hserve

end Scenario

open Scenario in
/-- The resolver has read and excluded the record of the other key and verified the one of `a`; on the same
table the delete answers that the key moved, on every pass, and a write over the record does the same. -/
theorem recheck_can_refuse : Runs demoted [⟨[97], ⟨[20], 0, .done (.cold 10 [1] 0 10)⟩, demoted⟩] ∧ demoted.Current [97] 10 ∧
    demoted.stageDelete [97] (hashOf [97]) 10 [] true true = .moved ∧
    (∀ passes, demoted.deletePasses [97] (hashOf [97]) 10 [] true true passes = none) ∧
    demoted.reverify [97] (hashOf [97]) (some 10) = false := by
  have hstill : demoted.stillAt [97] (hashOf [97]) 10 = false := by decide +kernel
  exact ⟨served_demoted, by decide +kernel, by decide +kernel, TieredTable.deletePasses_moved hstill, hstill⟩

open Scenario in
theorem recheck_accepts_cold : cold.deletePasses [97] (hashOf [97]) 10 [] true true 1 = some .applied := by
  have hrecheck := @recheck_accepts_iff hashOf blobs cold [] [97] 10 (cold_reaches fun _ _ _ _ => trivial) (by decide +kernel)
    (by decide +kernel)
  exact hrecheck.2.2.1 (hrecheck.1.mp (by decide +kernel)) []

end InfinityDB.Tiered
