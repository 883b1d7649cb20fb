import InfinityDB.Query.Page

/-!
# A chain of pages is one sweep

The cursor of a page that starts where the last one stopped has passed what the last one had passed, so
the cursors of all pages make one ordered sweep over the tree. What the chain hands out is what the
sweep returns, but for a pair beyond the upper edge that ends it.
-/

namespace InfinityDB.Query

open Lib Option

variable {S : KeyScheme} {F : Nat}

namespace RangeEdge

private theorem admitsFromBelow_mono {edge : RangeEdge} {a b : Bytes} (hab : a ≤ b) (h : edge.admitsFromBelow a = true) :
    edge.admitsFromBelow b = true := by
  cases edge with
  | unbounded => rfl
  | included bytes => exact decide_eq_true (le_trans (of_decide_eq_true h) hab)
  | excluded bytes => exact decide_eq_true (lt_of_lt_of_le (of_decide_eq_true h) hab)

theorem admitsFromAbove_anti {edge : RangeEdge} {a b : Bytes} (hab : a ≤ b) (h : edge.admitsFromAbove b = true) :
    edge.admitsFromAbove a = true := by
  cases edge with
  | unbounded => rfl
  | included bytes => exact decide_eq_true (le_trans hab (of_decide_eq_true h))
  | excluded bytes => exact decide_eq_true (lt_of_le_of_lt hab (of_decide_eq_true h))

def start : RangeEdge → Start
  | .unbounded => .fromStart
  | .included key => .fromKey key true
  | .excluded key => .fromKey key false

private theorem start_cursor (edge : RangeEdge) : edge.start.cursor = edge.cursor := by cases edge <;> rfl

private theorem start_beyond (edge : RangeEdge) (p : Pair) : edge.start.Beyond p ↔ edge.admitsFromBelow p.key = true := by
  cases edge with
  | unbounded => exact ⟨fun _ => rfl, fun _ => trivial⟩
  | included bytes => exact (decide_eq_true_iff (p := bytes ≤ p.key)).symm
  | excluded bytes => exact (decide_eq_true_iff (p := bytes < p.key)).symm

end RangeEdge

/-- Where a page starts: strictly after the resume pair, unless that lies below the lower edge. -/
def pageStart (lo : RangeEdge) : Option PageResume → Start
  | some r => if lo.admitsFromBelow r.key then .resumeAfter r.key r.entryRef else lo.start
  | none => lo.start

/-- The clamp at the seek is a lower-edge check on every candidate. -/
theorem pageStart_beyond (lo : RangeEdge) (resume : Option PageResume) (p : Pair) :
    (pageStart lo resume).Beyond p ↔ lo.admitsFromBelow p.key = true ∧ ∀ r ∈ resume, r.pair < p := by
  cases resume with
  | none => simp [pageStart, RangeEdge.start_beyond]
  | some r =>
    rw [pageStart]
    split
    case isTrue hadm =>
      change r.pair < p ↔ _
      constructor
      · intro hlt
        refine ⟨RangeEdge.admitsFromBelow_mono (Pair.key_le_of_le hlt.le) hadm, ?_⟩
        rintro r' ⟨⟩
        exact hlt
      · exact fun h => h.2 r rfl
    case isFalse hadm =>
      rw [RangeEdge.start_beyond]
      refine ⟨fun h => ⟨h, ?_⟩, And.left⟩
      rintro r' ⟨⟩
      -- the edge admits `p` and not the resume pair
      refine (Pair.lt_iff _ _).mpr (.inl (not_le.mp fun hle => hadm ?_))
      exact RangeEdge.admitsFromBelow_mono hle h

namespace RangePager

/-- A page that starts is fresh: its cursor stands at the page's start and nothing is counted yet. -/
theorem new_ok {lo hi : RangeEdge} {resume : Option PageResume} {keyType : IndexKeyType} {scanBudget : Nat}
    {limit : Option Nat} {pager : RangePager} (h : new lo hi resume keyType scanBudget limit = some (.ok pager)) :
    pager = ⟨(pageStart lo resume).cursor, hi, scanBudget, 0, 0, limit, false, [], none⟩ := by
  obtain ⟨-, h⟩ := ite_none_left_eq_some.mp h
  split at h
  case isTrue => simp at h
  case isFalse =>
    obtain rfl := Except.ok.inj (some.inj h)
    cases resume with
    | none => rw [pageStart, RangeEdge.start_cursor]
    | some r =>
      rw [pageStart]
      dsimp only
      split
      · rfl
      · rw [RangeEdge.start_cursor]

end RangePager

namespace PageChain

/-- The page's resume pair, or its own start if it consumed nothing. -/
def resumePoint (s : PageChain S F) : Option PageResume := s.pager.finish.resume.or s.resume

/-- What is left of the limit when the page ends. -/
def limitLeft (s : PageChain S F) : Option Nat := s.limit.map (· - s.pager.matched)

/-- What one event does to a chain. -/
inductive Moves (s : PageChain S F) : PageEvent → PageChain S F → Prop
  | past (event : PageEvent) : Moves s event s
  | rest {pager : RangePager} (hnext : s.pager.next s.tree = some (none, pager)) : Moves s .next { s with pager }
  | hand {pair : Pair} {pager : RangePager} (hnext : s.pager.next s.tree = some (some pair, pager)) :
      Moves s .next { s with pager, handed := s.handed ++ [pair], idle := 0 }
  | countMatch : Moves s .countMatch { s with pager := s.pager.countMatch }
  | complete (scanBudget : Nat) (hdone : s.pager.done = true) :
      Moves s (.turn scanBudget) { s with ended := some .complete }
  | refuse {scanBudget : Nat} {error : PageError}
      (hnew : RangePager.new s.lo s.hi s.resumePoint s.keyType scanBudget s.limitLeft = some (.error error)) :
      Moves s (.turn scanBudget) { s with ended := some (.refused error) }
  | fresh {scanBudget : Nat} {pager : RangePager} (hdone : s.pager.done = false)
      (hnew : RangePager.new s.lo s.hi s.resumePoint s.keyType scanBudget s.limitLeft = some (.ok pager)) :
      Moves s (.turn scanBudget) { s with
        resume := s.resumePoint, limit := s.limitLeft, pager, matched := s.matched + s.pager.matched, idle := 0 }
  | call {call : Call} {reply : Reply} {tree : OrderedMap S F} (hcall : s.tree.step call = some (reply, tree)) :
      Moves s (.call call) { s with tree, history := s.history ++ [tree], idle := s.idle + reply.changed.toNat }

variable {s s' : PageChain S F}

private theorem turn_moves {scanBudget : Nat} (h : s.turn scanBudget = some s') : s.Moves (.turn scanBudget) s' := by
  unfold turn at h
  dsimp only at h
  cases hdone : s.pager.done with
  | true =>
    rw [if_neg (by simp [RangePager.finish, hdone])] at h
    cases h
    exact .complete scanBudget hdone
  | false =>
    rw [if_pos (by simp [RangePager.finish, hdone])] at h
    obtain ⟨started, hnew, hout⟩ := map_eq_some_iff.mp h
    cases started with
    | error error =>
      obtain rfl := hout
      exact .refuse hnew
    | ok pager =>
      obtain rfl := hout
      exact .fresh hdone hnew

theorem step_moves {event : PageEvent} (h : s.step event = some s') : s.Moves event s' := by
  by_cases hend : s.ended.isSome = true ∧ ∀ call, event ≠ .call call
  · obtain rfl : s = s' := by
      cases event with
      | call call => exact absurd rfl (hend.2 call)
      | next | countMatch | turn => exact some.inj ((if_pos hend.1).symm.trans h)
    exact .past event
  · cases event with
    | next =>
      obtain ⟨⟨out, pager⟩, hnext, hout⟩ := bind_eq_some_iff.mp
        ((if_neg fun hs => hend ⟨hs, fun _ hc => nomatch hc⟩).symm.trans h)
      cases out with
      | none =>
        cases hout
        exact .rest hnext
      | some pair =>
        cases hout
        exact .hand hnext
    | countMatch =>
      obtain rfl := some.inj ((if_neg fun hs => hend ⟨hs, fun _ hc => nomatch hc⟩).symm.trans h)
      exact .countMatch
    | turn scanBudget => exact turn_moves ((if_neg fun hs => hend ⟨hs, fun _ hc => nomatch hc⟩).symm.trans h)
    | call call =>
      obtain ⟨⟨reply, tree⟩, hcall, hout⟩ := bind_eq_some_iff.mp h
      cases hout
      exact .call hcall

/-- Run rule: what every move keeps holds after any run. -/
theorem run_induct {P : PageChain S F → Prop} (hmoves : ∀ s event s', P s → s.Moves event s' → P s')
    {events : List PageEvent} (h : P s) (hrun : s.run events = some s') : P s' := by
  induction events generalizing s with
  | nil =>
    obtain rfl : s = s' := by simpa [PageChain.run] using hrun
    exact h
  | cons event events ih =>
    rw [run_cons] at hrun
    obtain ⟨s₁, hstep, hrest⟩ := bind_eq_some_iff.mp hrun
    exact ih (hmoves s event s₁ h (step_moves hstep)) hrest

end PageChain

/-- `next` counts candidates only. -/
theorem RangePager.next_counts {pager pager' : RangePager} {tree : OrderedMap S F} {out : Option Pair}
    (h : pager.next tree = some (out, pager')) :
    pager'.limitRemaining = pager.limitRemaining ∧ pager'.matched = pager.matched := by
  unfold RangePager.next at h
  split at h
  · obtain ⟨-, rfl⟩ := Prod.mk.inj (some.inj h)
    exact ⟨rfl, rfl⟩
  obtain ⟨⟨out', cursor⟩, -, h⟩ := bind_eq_some_iff.mp h
  cases out' with
  | none =>
    obtain ⟨-, rfl⟩ := Prod.mk.inj (some.inj h)
    exact ⟨rfl, rfl⟩
  | some pair =>
    dsimp only at h
    split at h <;>
    · obtain ⟨-, rfl⟩ := Prod.mk.inj (some.inj h)
      exact ⟨rfl, rfl⟩

/-- A match report moves one from what is left to what is matched, or nothing. -/
theorem RangePager.countMatch_counts (pager : RangePager) (n : Nat) :
    pager.countMatch.limitRemaining.map (· + (n + pager.countMatch.matched)) =
      pager.limitRemaining.map (· + (n + pager.matched)) := by
  unfold RangePager.countMatch
  split
  · rfl
  rename_i hne
  cases hlim : pager.limitRemaining with
  | none => rfl
  | some remaining =>
    have hpos : remaining ≠ 0 := fun h0 => hne (.inr (by rw [hlim, h0]))
    simp only [map_some]
    congr 1
    omega

namespace PageChain

/-- What is left of the limit and what all pages matched make the statement's limit; what is left and
what this page matched, the one the page was started with. -/
structure Counts (limit : Option Nat) (s : PageChain S F) : Prop where
  remaining : s.pager.limitRemaining.map (· + s.total) = limit
  page : s.pager.limitRemaining.map (· + s.pager.matched) = s.limit

variable {limit : Option Nat} {s s' : PageChain S F}

section
variable (h : s.Counts limit)
include h

theorem Counts.limitLeft : s.limitLeft = s.pager.limitRemaining := by
  rw [PageChain.limitLeft, ← h.page, Option.map_map]
  exact (congrFun (congrArg Option.map (funext fun n => Nat.add_sub_cancel n _)) _).trans Option.map_id'

theorem Counts.moves {event : PageEvent} (hmoves : s.Moves event s') : s'.Counts limit := by
  cases hmoves with
  | past => exact h
  | rest hnext | hand hnext =>
    obtain ⟨hrem, hmatched⟩ := RangePager.next_counts hnext
    exact ⟨by simpa [total, hrem, hmatched] using h.remaining, by simpa [hrem, hmatched] using h.page⟩
  | countMatch =>
    refine ⟨(RangePager.countMatch_counts s.pager s.matched).trans h.remaining, ?_⟩
    have hpage := RangePager.countMatch_counts s.pager 0
    simp only [zero_add] at hpage
    exact hpage.trans h.page
  | complete | refuse | call => exact ⟨h.remaining, h.page⟩
  | fresh hdone hnew =>
    obtain rfl := RangePager.new_ok hnew
    refine ⟨?_, Option.map_id'⟩
    change s.limitLeft.map (· + (s.matched + s.pager.matched + 0)) = limit
    rw [h.limitLeft]
    exact h.remaining

/-- The limit is reached when nothing is left of it. -/
theorem Counts.reached_iff : limit = some s.total ↔ s.pager.limitRemaining = some 0 := by
  rw [← h.remaining]
  cases s.pager.limitRemaining with
  | none | some remaining => simp

theorem Counts.total_le {most : Nat} (hlimit : limit = some most) : s.total ≤ most := by
  rw [← h.remaining] at hlimit
  obtain ⟨remaining, -, rfl⟩ := map_eq_some_iff.mp hlimit
  exact Nat.le_add_left _ _

/-- Once the limit is reached no candidate is handed out and no match counted. -/
theorem Counts.moves_reached (hreached : limit = some s.total) {event : PageEvent}
    (hmoves : s.Moves event s') : s'.handed = s.handed ∧ s'.total = s.total := by
  have hzero := h.reached_iff.mp hreached
  have hrests : s.pager.next s.tree = some (none, s.pager) := if_pos (.inr (.inr hzero))
  cases hmoves with
  | past | complete | refuse | call => exact ⟨rfl, rfl⟩
  | rest hnext => exact ⟨rfl, congrArg (s.matched + ·) (RangePager.next_counts hnext).2⟩
  | hand hnext => exact absurd (hrests.symm.trans hnext) (by simp)
  | countMatch =>
    have hsame : s.pager.countMatch = s.pager := if_pos (.inr hzero)
    exact ⟨rfl, by rw [hsame]⟩
  | fresh hdone hnew =>
    obtain rfl := RangePager.new_ok hnew
    exact ⟨rfl, rfl⟩

theorem Counts.run_reached (hreached : limit = some s.total) {events : List PageEvent}
    (hrun : s.run events = some s') : s'.handed = s.handed := by
  have hkeeps := run_induct (P := fun s' => s'.Counts limit ∧ s'.handed = s.handed ∧ s'.total = s.total)
    (fun s₁ event s₂ h₁ hmoves => by
      obtain ⟨hhanded, htotal⟩ := h₁.1.moves_reached (h₁.2.2.symm ▸ hreached) hmoves
      exact ⟨h₁.1.moves hmoves, hhanded.trans h₁.2.1, htotal.trans h₁.2.2⟩) ⟨h, rfl, rfl⟩ hrun
  exact hkeeps.2.1

end

end PageChain

end InfinityDB.Query
