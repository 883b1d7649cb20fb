import InfinityDB.Query.PageChain

/-!
# What a chain of pages hands out

Whatever happens to the tree between two calls, the candidates of all pages ascend inside the edges and
miss no pair that stayed. The one thing to exclude is an epoch that comes round: the cursor's cached
position is vouched for by a word that counts the changes of the tree modulo 2^64.
-/

namespace InfinityDB.Query

open Lib List Option

variable {S : KeyScheme} {F : Nat}

/-- A call of `next` leaves a page alone that is done or has no budget or limit left; otherwise it
visits the tree once. -/
theorem RangePager.next_cases {pager pager' : RangePager} {tree : OrderedMap S F} {out : Option Pair}
    (h : pager.next tree = some (out, pager')) :
    (pager.done = true ∨ pager.scanBudget ≤ pager.scanned ∨ pager.limitRemaining = some 0) ∧
      out = none ∧ pager' = pager ∨
    pager.done = false ∧ ∃ found cursor, pager.cursor.next tree = some (found, cursor) ∧
      match found with
      | none => out = none ∧ pager' = { pager with cursor, done := true }
      | some pair =>
        if pager.hi.admitsFromAbove pair.key then out = some pair ∧ pager' = { pager with
          cursor, scanned := pager.scanned + 1, lastKey := pair.key, lastRef := some pair.entryRef }
        else out = none ∧ pager' = { pager with cursor, done := true } := by
  unfold RangePager.next at h
  split at h
  · rename_i hrests
    cases h
    exact .inl ⟨hrests, rfl, rfl⟩
  rename_i hactive
  have hdone : pager.done = false := Bool.eq_false_iff.mpr fun hd => hactive (.inl hd)
  obtain ⟨⟨found, cursor⟩, hnext, h⟩ := bind_eq_some_iff.mp h
  refine .inr ⟨hdone, found, cursor, hnext, ?_⟩
  cases found with
  | none =>
    cases h
    exact ⟨rfl, rfl⟩
  | some pair =>
    dsimp only at h ⊢
    split at h <;> rename_i hadm
    · cases h
      rw [if_pos hadm]
      exact ⟨rfl, rfl⟩
    · cases h
      rw [if_neg hadm]
      exact ⟨rfl, rfl⟩

/-- With budget and limit left, a call that hands out nothing ends the range. -/
theorem RangePager.done_of_next {pager pager' : RangePager} {tree : OrderedMap S F}
    (h : pager.next tree = some (none, pager')) (hbudget : pager.scanned < pager.scanBudget)
    (hlimit : pager.limitRemaining ≠ some 0) : pager'.done = true := by
  rcases next_cases h with ⟨hrests, -, rfl⟩ | ⟨-, found, cursor, -, hout⟩
  · rcases hrests with hdone | hspent | hzero
    · exact hdone
    · exact absurd hbudget (Nat.not_lt.mpr hspent)
    · exact absurd hzero hlimit
  cases found with
  | none => exact hout.2 ▸ rfl
  | some pair =>
    dsimp only at hout
    split at hout
    · exact absurd hout.1 nofun
    · exact hout.2 ▸ rfl

namespace PageChain

/-- At some moment every pair of the range lay at or below a candidate. -/
def Exhausted (lo hi : RangeEdge) (origin : Option PageResume) (s : PageChain S F) : Prop :=
  ∃ m ∈ s.history, ∀ p, m.Present p → InRange lo hi origin p → ∃ q ∈ s.handed, p ≤ q

/-- The trees since the start, as sets. -/
def met (s : PageChain S F) : List (Set Pair) := s.history.map fun m => {p | m.Present p}

/-- The state of a chain: its page's cursor is at the end of one sweep from where the statement
starts. Beyond the candidates the sweep returned at most the pair that ended the range. -/
structure Inv (lo hi : RangeEdge) (origin : Option PageResume) (s : PageChain S F) (V : Backing S) : Prop where
  lower : s.lo = lo
  upper : s.hi = hi
  pagerUpper : s.pager.hi = hi
  backs : Backs s.tree V
  last : s.tree ∈ s.history
  tracks : Tracks s.pager.cursor s.tree V s.idle
  sweeps : ∃ extra, Sweeps (pageStart lo origin).cursor.passed s.met (s.handed ++ extra) s.pager.cursor.passed ∧
    (∀ p ∈ extra, hi.admitsFromAbove p.key = false) ∧ (s.pager.done = false → extra = [])
  within : ∀ p ∈ s.handed, hi.admitsFromAbove p.key = true
  resumes : s.pager.done = false → (pageStart lo s.resumePoint).cursor.passed = s.pager.cursor.passed
  ends : s.pager.done = true → s.pager.limitRemaining = some 0 ∨ s.Exhausted lo hi origin

variable {lo hi : RangeEdge} {origin : Option PageResume} {s s' : PageChain S F} {V : Backing S}

theorem Inv.set_mem (h : s.Inv lo hi origin V) : (V.set : Set Pair) ∈ s.met := by
  refine List.mem_map.mpr ⟨s.tree, h.last, ?_⟩
  ext p
  exact h.backs.present_iff p

/-- The sweep of a page that is not done returned the candidates and nothing else. -/
theorem Inv.sweep (h : s.Inv lo hi origin V) (hdone : s.pager.done = false) :
    Sweeps (pageStart lo origin).cursor.passed s.met s.handed s.pager.cursor.passed := by
  obtain ⟨extra, hsweep, -, hnil⟩ := h.sweeps
  rwa [hnil hdone, append_nil] at hsweep

theorem mem_passed_iff (lo : RangeEdge) (origin : Option PageResume) (p : Pair) :
    p ∉ (pageStart lo origin).cursor.passed ↔ lo.admitsFromBelow p.key = true ∧ ∀ r ∈ origin, r.pair < p := by
  rw [Start.mem_passed_iff, not_not, pageStart_beyond]

section
variable (h : s.Inv lo hi origin V)
include h

/-- A pair that lies in the range and in what the sweep passed lies at or below a candidate. -/
theorem Inv.bounded (hdone : s.pager.done = false) {p : Pair}
    (hin : InRange lo hi origin p) (hp : p ∈ s.pager.cursor.passed) : ∃ q ∈ s.handed, p ≤ q :=
  (h.sweep hdone).bounded hp ((mem_passed_iff lo origin p).mpr ⟨hin.1, hin.2.2⟩)

/-- The visit that finds the range at its end. -/
theorem Inv.exhausted (hdone : s.pager.done = false) {found : Option Pair}
    (hnext : IsNext (V.set : Set Pair) s.pager.cursor.passed found)
    (hbeyond : ∀ p ∈ found, hi.admitsFromAbove p.key = false) : s.Exhausted lo hi origin := by
  refine ⟨s.tree, h.last, fun p hp hin => h.bounded hdone hin ?_⟩
  have hset := (h.backs.present_iff p).mp hp
  cases found with
  | none => exact hnext hset
  | some x =>
    by_contra hnot
    have hle : x ≤ p := hnext.2.2 p hset hnot
    have hadm := RangeEdge.admitsFromAbove_anti (Pair.key_le_of_le hle) hin.2.1
    rw [hbeyond x rfl] at hadm
    exact Bool.false_ne_true hadm

/-- One visit of the tree by the page's cursor. -/
theorem Inv.visit (hidle : s.idle < 2 ^ 64) {found : Option Pair} {cursor : OrderedCursor}
    (hnext : s.pager.cursor.next s.tree = some (found, cursor)) :
    IsNext (V.set : Set Pair) s.pager.cursor.passed found ∧
    match found with
    | none => cursor = s.pager.cursor
    | some p => cursor.passed = Set.Iic p ∧ S.Admits cursor.keyBuf ∧ ∀ n, Tracks cursor s.tree V n := by
  obtain ⟨pos, hpos, -⟩ := bind_eq_some_iff.mp hnext
  obtain ⟨pos', hpos', haims⟩ := OrderedCursor.position_aims h.backs h.tracks hidle
    (OrderedCursor.position_safe h.backs hpos)
  rcases OrderedCursor.next_aimed h.backs hpos' haims with
    ⟨hnext', hend⟩ | ⟨p, c', hnext', hisNext, -, hpassed, hadmits, htracks⟩
  · obtain ⟨rfl, rfl⟩ := Prod.mk.inj (some.inj (hnext.symm.trans hnext'))
    exact ⟨hend, rfl⟩
  · obtain ⟨rfl, rfl⟩ := Prod.mk.inj (some.inj (hnext.symm.trans hnext'))
    exact ⟨hisNext, hpassed, hadmits, htracks⟩

/-- The range ends: nothing was found, or a pair beyond the upper edge. -/
theorem Inv.close (hdone : s.pager.done = false) (hidle : s.idle < 2 ^ 64)
    {found : Option Pair} {cursor : OrderedCursor} (hnext : s.pager.cursor.next s.tree = some (found, cursor))
    (hbeyond : ∀ p ∈ found, hi.admitsFromAbove p.key = false) :
    Inv lo hi origin { s with pager := { s.pager with cursor, done := true } } V := by
  obtain ⟨hisNext, hcursor⟩ := h.visit hidle hnext
  have hend := h.exhausted hdone hisNext hbeyond
  cases found with
  | none =>
    have hsame : cursor = s.pager.cursor := hcursor
    subst hsame
    exact { h with
      sweeps := ⟨[], by rw [append_nil]; exact h.sweep hdone, fun p hp => absurd hp not_mem_nil, fun _ => rfl⟩
      resumes := nofun
      ends := fun _ => .inr hend }
  | some p =>
    obtain ⟨hpassed, -, htracks⟩ := hcursor
    exact { h with
      tracks := htracks s.idle
      sweeps := ⟨[p], by rw [hpassed]; exact (h.sweep hdone).visit h.set_mem hisNext,
        fun q hq => by rw [mem_singleton.mp hq]; exact hbeyond p rfl, nofun⟩
      resumes := nofun
      ends := fun _ => .inr hend }

theorem Inv.hand (hdone : s.pager.done = false) (hidle : s.idle < 2 ^ 64)
    {p : Pair} {cursor : OrderedCursor} (hnext : s.pager.cursor.next s.tree = some (some p, cursor))
    (hadm : hi.admitsFromAbove p.key = true) : Inv lo hi origin { s with
      pager := { s.pager with
        cursor, scanned := s.pager.scanned + 1, lastKey := p.key, lastRef := some p.entryRef }
      handed := s.handed ++ [p], idle := 0 } V := by
  obtain ⟨hisNext, hpassed, -, htracks⟩ := h.visit hidle hnext
  have hsweep := h.sweep hdone
  have hbelow : lo.admitsFromBelow p.key = true := by
    have hnot : p ∉ (pageStart lo origin).cursor.passed :=
      fun hin => hisNext.2.1 (hsweep.start_subset (pageStart lo origin).isLowerSet_passed hin)
    exact ((mem_passed_iff lo origin p).mp hnot).1
  refine { h with tracks := htracks 0, sweeps := ⟨[], ?_, by simp, fun _ => rfl⟩, within := ?_, resumes := fun _ => ?_,
                  ends := ?_ }
  · rw [append_nil, show cursor.passed = _ from hpassed]
    exact hsweep.visit h.set_mem hisNext
  · intro q hq
    rcases mem_append.mp hq with hq | hq
    · exact h.within q hq
    · rw [mem_singleton.mp hq]
      exact hadm
  · have hresume : ({ s with
        pager := { s.pager with
          cursor, scanned := s.pager.scanned + 1, lastKey := p.key, lastRef := some p.entryRef }
        handed := s.handed ++ [p], idle := 0 } : PageChain S F).resumePoint = some ⟨p.key, p.entryRef⟩ := by
      simp [resumePoint, RangePager.finish, hdone]
    rw [hresume, pageStart, if_pos hbelow]
    exact hpassed.symm
  · exact fun hd => absurd (hdone.symm.trans hd) Bool.false_ne_true

theorem Inv.count : Inv lo hi origin { s with pager := s.pager.countMatch } V := by
  unfold RangePager.countMatch
  split
  · exact h
  cases hlim : s.pager.limitRemaining with
  | none =>
    exact { h with ends := fun hd => (h.ends hd).imp (fun hz => absurd (hlim.symm.trans hz) (by simp)) id }
  | some remaining =>
    dsimp only
    cases hzero : remaining - 1 == 0 with
    | true =>
      rw [Bool.or_true]
      exact { h with
        sweeps := (by
          obtain ⟨extra, hsweep, hout, -⟩ := h.sweeps
          exact ⟨extra, hsweep, hout, nofun⟩)
        resumes := nofun
        ends := fun _ => .inl (congrArg some (beq_iff_eq.mp hzero)) }
    | false =>
      rw [Bool.or_false]
      refine { h with ends := fun hd => (h.ends hd).imp (fun hz => ?_) id }
      -- a page with something left of its limit is not done for the limit
      obtain rfl := some.inj (hlim.symm.trans hz)
      simp at hzero

/-- The next page's cursor has passed what this one's has. -/
theorem Inv.fresh (hdone : s.pager.done = false) (scanBudget : Nat) (limit : Option Nat) : Inv lo hi origin { s with
      resume := s.resumePoint, limit, matched := s.matched + s.pager.matched, idle := 0
      pager := ⟨(pageStart s.lo s.resumePoint).cursor, s.hi, scanBudget, 0, 0, limit, false, [], none⟩ } V := by
  have hpassed := h.resumes hdone
  rw [← h.lower] at hpassed
  exact { h with
    pagerUpper := h.upper
    tracks := .of_start _ s.tree V 0
    sweeps := ⟨[], by rw [append_nil, hpassed]; exact h.sweep hdone, by simp, fun _ => rfl⟩
    resumes := fun _ => by rw [← h.lower]; rfl
    ends := nofun }

theorem Inv.call {call : Call} {reply : Reply} {tree : OrderedMap S F} {V' : Backing S}
    (hb : Backs tree V') (hmoved : Moved call s.tree tree V V' reply) :
    Inv lo hi origin { s with tree, history := s.history ++ [tree], idle := s.idle + reply.changed.toNat } V' := by
  refine { h with backs := hb, last := by simp, tracks := h.tracks.step hmoved, sweeps := ?_, ends := fun hd => ?_ }
  · obtain ⟨extra, hsweep, hout, hnil⟩ := h.sweeps
    refine ⟨extra, ?_, hout, hnil⟩
    rw [met, map_append]
    exact hsweep.change _
  · refine (h.ends hd).imp id ?_
    rintro ⟨m, hm, hall⟩
    exact ⟨m, mem_append_left _ hm, hall⟩

theorem Inv.moves (hF : 8 ≤ F) (heven : F % 2 = 0) {event : PageEvent}
    (hidle : event = .next → s.idle < 2 ^ 64) (hmoves : s.Moves event s') : ∃ V', s'.Inv lo hi origin V' := by
  cases hmoves with
  | past => exact ⟨V, h⟩
  | @rest pager hnext =>
    refine ⟨V, ?_⟩
    rcases RangePager.next_cases hnext with ⟨-, -, rfl⟩ | ⟨hdone, found, cursor, hfound, hout⟩
    · exact h
    cases found with
    | none =>
      obtain rfl := hout.2
      exact h.close hdone (hidle rfl) hfound nofun
    | some p =>
      dsimp only at hout
      split at hout
      · exact absurd hout.1 (by simp)
      rename_i hadm
      obtain rfl := hout.2
      refine h.close hdone (hidle rfl) hfound ?_
      rintro q ⟨⟩
      rw [h.pagerUpper] at hadm
      exact Bool.eq_false_iff.mpr hadm
  | @hand p pager hnext =>
    refine ⟨V, ?_⟩
    rcases RangePager.next_cases hnext with ⟨-, hnone, -⟩ | ⟨hdone, found, cursor, hfound, hout⟩
    · simp at hnone
    cases found with
    | none => exact absurd hout.1 (by simp)
    | some q =>
      dsimp only at hout
      split at hout
      next hadm =>
        obtain ⟨hq, rfl⟩ := hout
        cases hq
        rw [h.pagerUpper] at hadm
        exact h.hand hdone (hidle rfl) hfound hadm
      · exact absurd hout.1 (by simp)
  | countMatch => exact ⟨V, h.count⟩
  | complete | refuse => exact ⟨V, { h with }⟩
  | @fresh scanBudget pager hdone hnew =>
    obtain rfl := RangePager.new_ok hnew
    exact ⟨V, h.fresh hdone scanBudget s.limitLeft⟩
  | call hcall =>
    obtain ⟨V', -, hb, hmoved⟩ := h.backs.step_of_some hF heven hcall
    exact ⟨V', h.call hb hmoved⟩

end

/-- Whenever `next` is called, fewer than 2^64 changes were made since the page's cursor was opened or
last returned a pair. -/
def FreshPages (s : PageChain S F) (events : List PageEvent) : Prop :=
  ∀ before after s', events = before ++ .next :: after → s.run before = some s' → s'.idle < 2 ^ 64

variable {events : List PageEvent} {m : OrderedMap S F} {keyType : IndexKeyType} {limit : Option Nat}
  {scanBudget : Nat}

theorem FreshPages.head {event : PageEvent} (h : s.FreshPages (event :: events))
    (hevent : event = .next) : s.idle < 2 ^ 64 :=
  h [] events s (by rw [hevent]; rfl) rfl

theorem FreshPages.tail {event : PageEvent} (h : s.FreshPages (event :: events))
    (hstep : s.step event = some s') : s'.FreshPages events := by
  intro before after s'' hsplit hrun
  refine h (event :: before) after s'' (by rw [hsplit]; rfl) ?_
  rw [run_cons, run_bind hstep, hrun]

theorem Inv.run (h : s.Inv lo hi origin V) (hF : 8 ≤ F) (heven : F % 2 = 0)
    (hfresh : s.FreshPages events) (hrun : s.run events = some s') : ∃ V', s'.Inv lo hi origin V' := by
  induction events generalizing s V with
  | nil =>
    obtain rfl : s = s' := by simpa [PageChain.run] using hrun
    exact ⟨V, h⟩
  | cons event events ih =>
    rw [run_cons] at hrun
    obtain ⟨s₁, hstep, hrest⟩ := bind_eq_some_iff.mp hrun
    obtain ⟨V₁, h₁⟩ := h.moves hF heven hfresh.head (step_moves hstep)
    exact ih h₁ (hfresh.tail hstep) hrest

/-- A chain that starts has its first page at the start of the sweep. -/
theorem start_ok (h : PageChain.start m lo hi keyType origin limit scanBudget = some (.ok s)) :
    s = ⟨m, lo, hi, keyType, origin, limit,
      ⟨(pageStart lo origin).cursor, hi, scanBudget, 0, 0, limit, false, [], none⟩, 0, none, [], [m], 0⟩ := by
  obtain ⟨started, hnew, hout⟩ := map_eq_some_iff.mp h
  cases started with
  | error error => exact absurd hout nofun
  | ok pager =>
    obtain rfl := RangePager.new_ok hnew
    exact (Except.ok.inj hout).symm

theorem inv_start (hb : Backs m V)
    (h : PageChain.start m lo hi keyType origin limit scanBudget = some (.ok s)) : s.Inv lo hi origin V := by
  obtain rfl := start_ok h
  exact {
    lower := rfl
    upper := rfl
    pagerUpper := rfl
    backs := hb
    last := mem_singleton.mpr rfl
    tracks := .of_start _ m V 0
    sweeps := ⟨[], .begin _, by simp, fun _ => rfl⟩
    within := by simp
    resumes := fun _ => rfl
    ends := nofun }

theorem counts_start (h : PageChain.start m lo hi keyType origin limit scanBudget = some (.ok s)) : s.Counts limit := by
  obtain rfl := start_ok h
  exact ⟨Option.map_id', Option.map_id'⟩

theorem Inv.ascending (h : s.Inv lo hi origin V) :
    s.handed.Pairwise (· < ·) ∧ ∀ p ∈ s.handed, InRange lo hi origin p := by
  obtain ⟨extra, hsweep, -, -⟩ := h.sweeps
  obtain ⟨hsorted, hmem⟩ := hsweep.ascending (pageStart lo origin).isLowerSet_passed
  refine ⟨(pairwise_append.mp hsorted).1, fun p hp => ?_⟩
  obtain ⟨hbelow, hafter⟩ := (mem_passed_iff lo origin p).mp (hmem p (mem_append_left _ hp)).2
  exact ⟨hbelow, h.within p hp, hafter⟩

/-- A pair of the range that stayed is not skipped. -/
theorem Inv.survivor (h : s.Inv lo hi origin V) {p q : Pair} (hin : InRange lo hi origin p)
    (hthere : ∀ m ∈ s.history, m.Present p) (hq : q ∈ s.handed) (hle : p ≤ q) : s.handed.count p = 1 := by
  obtain ⟨extra, hsweep, hout, -⟩ := h.sweeps
  have hlower := (pageStart lo origin).isLowerSet_passed
  have hpassed : p ∈ s.pager.cursor.passed :=
    hsweep.isLowerSet hlower hle ((hsweep.ascending hlower).2 q (mem_append_left _ hq)).1
  have hmem := hsweep.complete hpassed ((mem_passed_iff lo origin p).mpr ⟨hin.1, hin.2.2⟩) fun t ht => by
    obtain ⟨m, hm, rfl⟩ := List.mem_map.mp ht
    exact hthere m hm
  rcases mem_append.mp hmem with hmem | hmem
  · exact count_eq_one_of_mem (h.ascending.1.imp fun hlt => ne_of_lt hlt) hmem
  · exact absurd ((hout p hmem).symm.trans hin.2.1) Bool.false_ne_true

theorem Inv.all_survivors (h : s.Inv lo hi origin V) (hend : s.Exhausted lo hi origin) {p : Pair}
    (hin : InRange lo hi origin p) (hthere : ∀ m ∈ s.history, m.Present p) : s.handed.count p = 1 := by
  obtain ⟨m, hm, hall⟩ := hend
  obtain ⟨q, hq, hle⟩ := hall p (hthere m hm) hin
  exact h.survivor hin hthere hq hle

/-- Over a tree that does not change the candidates are the first pairs of the range. -/
theorem Inv.still (h : s.Inv lo hi origin V) {chain : List Pair} (hstill : ∀ m ∈ s.history, m.leafChain = some chain) :
    s.handed <+: chain.filter (InRange lo hi origin ·) ∧
    (s.Exhausted lo hi origin → s.handed = chain.filter (InRange lo hi origin ·)) := by
  have hpresent (m : OrderedMap S F) (hm : m ∈ s.history) (p : Pair) : m.Present p ↔ p ∈ chain := by
    rw [OrderedMap.Present, hstill m hm]
    simp
  have hsorted : chain.Pairwise (· < ·) := by
    have hwalk := h.backs.lists
    rw [← some.inj (hwalk.walk.symm.trans (hstill _ h.last))]
    exact hwalk.ascending
  have hthere {p : Pair} (hp : p ∈ chain) : ∀ m ∈ s.history, m.Present p := fun m hm => (hpresent m hm p).mpr hp
  have hsurvives {p : Pair} (hp : p ∈ chain.filter (InRange lo hi origin ·)) :
      p ∈ chain ∧ InRange lo hi origin p := by simpa using hp
  have hstarts : s.handed <+: chain.filter (InRange lo hi origin ·) := by
    refine isPrefix_of_lower h.ascending.1 (hsorted.filter _) (fun p hp => ?_) fun q hq p hp hle => ?_
    · obtain ⟨extra, hsweep, -, -⟩ := h.sweeps
      obtain ⟨t, ht, hpt⟩ := hsweep.mem_met (mem_append_left extra hp)
      obtain ⟨m, hm, rfl⟩ := List.mem_map.mp ht
      simpa using ⟨(hpresent m hm p).mp hpt, h.ascending.2 p hp⟩
    · obtain ⟨hchain, hin⟩ := hsurvives hp
      exact count_pos_iff.mp (by rw [h.survivor hin (hthere hchain) hq hle]; exact Nat.one_pos)
  refine ⟨hstarts, fun hend => hstarts.sublist.antisymm ?_⟩
  refine sublist_of_subperm_of_pairwise ?_ (hsorted.filter _) h.ascending.1
  refine subperm_of_subset ((hsorted.filter _).imp fun hlt => ne_of_lt hlt) fun p hp => ?_
  obtain ⟨hchain, hin⟩ := hsurvives hp
  exact count_pos_iff.mp (by rw [h.all_survivors hend hin (hthere hchain)]; exact Nat.one_pos)

end PageChain

end InfinityDB.Query
